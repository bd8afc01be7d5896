import RegisterVM.Debug.ModifiedUtf8
/-!
# Debug tables

A debug table takes relative instruction addresses to values. It is a run of entries, each a
one-byte advance from the entry before and a value of one or two bytes, up to an end mark. An
advance that does not fit is split by repeating the previous value.

`lookup` finds the value at an address: that of an entry exactly there, and otherwise that of the
last entry before it.
-/

namespace RegisterVM.Debug

/-- The byte that ends a table. -/
def endOfTable : UInt8 := 0xFF

/-- The largest advance that one entry can say. -/
def maxAdvance : Nat := 254

/-- How many bytes of a table are looked at. -/
def tableLimit : Int := 4096

/-- A table entry: a relative address and its value. -/
structure TableEntry where
  pc : Int32
  value : Int32
  deriving DecidableEq, Repr

/-- Why a table could not be written. -/
inductive TableError where
  /-- An entry lies before the method. -/
  | negativePc (pc : Int32)
  /-- The first entry is too far from the method entry. -/
  | gap (pc : Int32)
  deriving DecidableEq, Repr

/-- The wording of a table error. -/
def TableError.message : TableError → String
  | .negativePc pc => "negative pc " ++ Text.int pc.toInt ++ " in debug table"
  | .gap pc => "first entry at pc " ++ Text.int pc.toInt ++ ": " ++ ErrorCode.tableGap.wording

/-! ### Writing -/

/-- The bytes of one entry. -/
def entryBytes (wide : Bool) (advance : Nat) (value : Int32) : List UInt8 :=
  UInt8.ofNat advance :: toBigEndian (if wide then 2 else 1) value.toUInt32.toNat

/-- The bytes that advance by `distance` and then name `value`; longer distances first repeat the
previous value as often as needed. -/
def advanceBytes (wide : Bool) (previous value : Int32) (distance : Nat) : List UInt8 :=
  if distance ≤ maxAdvance then entryBytes wide distance value
  else
    let repeats := (distance - 1) / maxAdvance
    (List.replicate repeats (entryBytes wide maxAdvance previous)).flatten ++
      entryBytes wide (distance - repeats * maxAdvance) value

/-- The bytes of entries in address order, after an entry at `last`. -/
def entriesBytes (wide : Bool) (last : TableEntry) : List TableEntry → List UInt8
  | [] => [endOfTable]
  | e :: rest =>
      advanceBytes wide last.value e.value (e.pc.toInt - last.pc.toInt).toNat ++
        entriesBytes wide e rest

/-- The bytes of a table. Entries may come in any order; those at one address keep theirs. -/
def tableBytes (wide : Bool) (entries : List TableEntry) : Except TableError (List UInt8) :=
  match entries.mergeSort (fun a b => a.pc ≤ b.pc) with
  | [] => .ok [endOfTable]
  | first :: rest =>
      if first.pc < 0 then .error (.negativePc first.pc)
      else if maxAdvance < first.pc.toInt.toNat then .error (.gap first.pc)
      else .ok (entryBytes wide first.pc.toInt.toNat first.value ++ entriesBytes wide first rest)

/-! ### Looking up -/

/-- Reads the value of an entry. -/
def readValue (m : Memory) (wide : Bool) (s : Stream) : Except StreamError (Int32 × Stream) := do
  let (high, s) ← Stream.readByte m s
  if wide then
    let (low, s) ← Stream.readByte m s
    return (Int32.ofNat (high.toNat * 256 + low.toNat), s)
  else return (Int32.ofNat high.toNat, s)

/-- Scans a table for address `pc`, from an entry at `now` whose value is `last`. Each entry takes a
byte of the limit, so `fuel` need not exceed it. -/
def scanTable (m : Memory) (wide : Bool) (pc : Int32) :
    (fuel : Nat) → Stream → (now last : Int32) → Int32
  | 0, _, _, last => last
  | fuel + 1, s, now, last =>
      match Stream.readByte m s with
      | .error _ => last
      | .ok (advance, s) =>
          if advance = endOfTable then last
          else
            match readValue m wide s with
            | .error _ => last
            | .ok (value, s) =>
                let here := now + Int32.ofNat advance.toNat
                if here > pc then last
                else if here = pc then value
                else scanTable m wide pc fuel s here value

/-- The value that the table at `address` gives for `pc`, `-1` if none. -/
def lookup (m : Memory) (address : UInt32) (wide : Bool) (pc : Int32) : Int32 :=
  scanTable m wide pc tableLimit.toNat ⟨address, tableLimit⟩ 0 (-1)

end RegisterVM.Debug
