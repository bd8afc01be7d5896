import RegisterVM.Library.Store
/-!
# Archives

The records of a store as bytes, so that they can be kept in a file between runs: a CBOR map from
keys to contents.
-/

namespace RegisterVM.Library

namespace Records

/-- Records as bytes. -/
def bytes (records : Records) : List UInt8 :=
  Cbor.writeMapHead records.toList.length ++
    records.toList.flatMap fun (key, value) => Cbor.writeBytes key ++ Cbor.writeBytes value

/-- The record that a pair of a map stands for. -/
def ofPair? : Cbor.Item × Cbor.Item → Option (Key × List UInt8)
  | (.bytes key, .bytes value) => some (key, value)
  | _ => none

/-- The records that bytes spell, in the order of their keys. -/
def ofBytes? (bytes : List UInt8) : Option Records :=
  match Cbor.read bytes with
  | some (.map pairs) => do
      let records ← pairs.mapM ofPair?
      return records.foldl (fun done (key, value) => done.insert key value) {}
  | _ => none

end Records

end RegisterVM.Library
