import RegisterVM.Memory.Region
/-!
# Memory

Memory is a region, or a map of sub-memories with disjoint windows in address order. An access to a
map goes to the one sub-memory whose window contains its first address, and so down to a region; it
may not reach past the region it starts in.

Numbers are big-endian. A write is checked before anything changes, so a refused write has no
effect.
-/

namespace RegisterVM

/-- Byte-addressed memory. -/
inductive Memory where
  /-- A single region. -/
  | region (r : Region)
  /-- Sub-memories in the order of their addresses. -/
  | map (parts : List Memory)

/-- A window that would overlap one already mapped. -/
structure OverlapError where
  base : UInt32
  deriving DecidableEq, Repr

/-- The wording of an overlap. -/
def OverlapError.message (e : OverlapError) : String :=
  "map " ++ Text.address e.base ++ ": " ++ ErrorCode.overlap.wording

instance : Failure OverlapError := ⟨OverlapError.message, fun _ => some .overlap⟩

namespace Memory

/-! ### Windows -/

mutual

/-- The first address of the window. -/
def base : Memory → UInt32
  | .region r => r.base
  | .map parts => firstBase parts

/-- The first address of a sequence of sub-memories, zero when there is none. -/
def firstBase : List Memory → UInt32
  | [] => 0
  | part :: _ => part.base

end

mutual

/-- The address just past the window. -/
def limit : Memory → Nat
  | .region r => r.base.toNat + r.size
  | .map parts => lastLimit parts

/-- The address just past the last of a sequence of sub-memories, zero when there is none. -/
def lastLimit : List Memory → Nat
  | [] => 0
  | part :: rest => if rest.isEmpty then part.limit else lastLimit rest

end

/-- How many addresses the window spans, gaps included. -/
def span (m : Memory) : Nat := m.limit - m.base.toNat

/-- Whether the window contains an address. -/
def contains (m : Memory) (address : UInt32) : Bool :=
  m.base ≤ address && address.toNat < m.limit

/-! ### Dispatch -/

/-- The sub-memory whose window contains an address: the last one that starts at or below it, if
the address lies inside. -/
def find? (address : UInt32) : List Memory → Option Memory
  | [] => none
  | part :: rest =>
      if firstBase rest ≤ address && !rest.isEmpty then find? address rest
      else if part.contains address then some part else none

mutual

/-- The region to which an access at `address` goes. -/
def leaf? (address : UInt32) : Memory → Option Region
  | .region r => some r
  | .map parts => leafAmong? address parts

/-- The region of a sequence of sub-memories to which an access goes. -/
def leafAmong? (address : UInt32) : List Memory → Option Region
  | [] => none
  | part :: rest =>
      if firstBase rest ≤ address && !rest.isEmpty then leafAmong? address rest
      else if part.contains address then part.leaf? address else none

end

mutual

/-- Changes the region to which an access at `address` goes. -/
def updateLeaf (address : UInt32) (f : Region → Region) : Memory → Memory
  | .region r => .region (f r)
  | .map parts => .map (updateAmong address f parts)

/-- Changes the region of a sequence of sub-memories to which an access goes. -/
def updateAmong (address : UInt32) (f : Region → Region) : List Memory → List Memory
  | [] => []
  | part :: rest =>
      if firstBase rest ≤ address && !rest.isEmpty then part :: updateAmong address f rest
      else if part.contains address then part.updateLeaf address f :: rest else part :: rest

end

/-! ### Access -/

/-- Checks an access of `count` bytes. -/
def check (m : Memory) (kind : AccessKind) (address : UInt32) (count : Nat) :
    Except AccessError Unit :=
  match m.leaf? address with
  | none => .error .outOfBounds
  | some r => r.check kind address count

/-- Reads `count` bytes. -/
def read (m : Memory) (address : UInt32) (count : Nat) : Except AccessError (List UInt8) :=
  match m.leaf? address with
  | none => .error .outOfBounds
  | some r => r.read address count

/-- Replaces bytes without a check. -/
def poke (m : Memory) (address : UInt32) (data : List UInt8) : Memory :=
  m.updateLeaf address fun r => r.poke address data

/-- Writes bytes. -/
def write (m : Memory) (address : UInt32) (data : List UInt8) : Except AccessError Memory := do
  m.check .write address data.length
  return m.poke address data

/-- Reads a big-endian number of `width` bytes. -/
def readNat (m : Memory) (address : UInt32) (width : Nat) : Except AccessError Nat :=
  bigEndian <$> m.read address width

/-- Reads a byte. -/
def readByte (m : Memory) (address : UInt32) : Except AccessError UInt8 :=
  UInt8.ofNat <$> m.readNat address 1

/-- Writes the `width` low-order bytes of a number, big-endian. -/
def writeNat (m : Memory) (address : UInt32) (width value : Nat) : Except AccessError Memory :=
  m.write address (toBigEndian width value)

/-! ### Composition -/

/-- Inserts a sub-memory with window `[start, stop)` in front of the first that starts at or after
it. `previous` is the end of the window before; nothing is inserted where windows would overlap. -/
def insertPart (part : Memory) (previous : Nat) : List Memory → Option (List Memory)
  | [] => if part.base.toNat < previous then none else some [part]
  | next :: rest =>
      if part.base ≤ next.base then
        if part.base.toNat < previous || next.base.toNat < part.base.toNat + part.span then none
        else some (part :: next :: rest)
      else (insertPart part (next.base.toNat + next.span) rest).map (next :: ·)

/-- Adds a sub-memory to the parts of a map. -/
def addPart (parts : List Memory) (part : Memory) : Except OverlapError (List Memory) :=
  match insertPart part 0 parts with
  | some parts => .ok parts
  | none => .error ⟨part.base⟩

/-- The map of the given sub-memories, added in order. -/
def ofParts (parts : List Memory) : Except OverlapError Memory :=
  .map <$> parts.foldlM addPart []

/-- Adds a sub-memory to a map. A single region is not a map and takes none. -/
def add (m : Memory) (part : Memory) : Except OverlapError Memory :=
  match m with
  | .region _ => .error ⟨part.base⟩
  | .map parts => .map <$> addPart parts part

/-- The parts of a map; a region has none. -/
def parts : Memory → List Memory
  | .region _ => []
  | .map parts => parts

mutual

/-- The regions of a memory in address order. -/
def regions : Memory → List Region
  | .region r => [r]
  | .map parts => regionsOf parts

/-- The regions of a sequence of sub-memories. -/
def regionsOf : List Memory → List Region
  | [] => []
  | part :: rest => part.regions ++ regionsOf rest

end

mutual

/-- Changes every region that satisfies a test. -/
def updateWhere (test : Region → Bool) (f : Region → Region) : Memory → Memory
  | .region r => .region (if test r then f r else r)
  | .map parts => .map (updatePartsWhere test f parts)

/-- Changes every region of a sequence of sub-memories that satisfies a test. -/
def updatePartsWhere (test : Region → Bool) (f : Region → Region) : List Memory → List Memory
  | [] => []
  | part :: rest => part.updateWhere test f :: updatePartsWhere test f rest

end

/-- The region of a name at a base. -/
def regionAt? (m : Memory) (name : String) (base : UInt32) : Option Region :=
  m.regions.find? fun r => r.name == name && r.base == base

/-- Puts a region in place of the one with its name and base. -/
def setRegion (m : Memory) (r : Region) : Memory :=
  m.updateWhere (fun s => s.name == r.name && s.base == r.base) fun _ => r

end Memory

end RegisterVM
