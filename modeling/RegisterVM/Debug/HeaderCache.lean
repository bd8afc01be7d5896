import RegisterVM.Debug.Header
/-!
# Header cache

Headers that were read completely are kept by their address, up to a capacity; a full cache drops
the one kept longest. Looking a header up and keeping it are separate operations, so that several
processors may share a cache.
-/

namespace RegisterVM.Debug

/-- Kept headers with their addresses, and these addresses by when they came in, the oldest
first. -/
structure HeaderCache where
  capacity : Nat
  entries : List (UInt32 × Header) := []
  order : List UInt32 := []

namespace HeaderCache

/-- The capacity where none is asked for. -/
def defaultCapacity : Nat := 256

/-- An empty cache; a capacity that is not positive stands for the default. -/
def empty (capacity : Int) : HeaderCache where
  capacity := if capacity ≤ 0 then defaultCapacity else capacity.toNat

/-- How many headers are kept. -/
def size (c : HeaderCache) : Nat := c.entries.length

/-- The kept header of an address. -/
def find? (c : HeaderCache) (w : UInt32) : Option Header := c.entries.lookup w

/-- The entries of the other addresses. -/
def without (entries : List (UInt32 × Header)) (w : UInt32) : List (UInt32 × Header) :=
  entries.filter fun e => e.1 != w

/-- Makes room for one more header: a full cache drops its oldest. -/
def makeRoom (c : HeaderCache) : HeaderCache :=
  if c.capacity ≤ c.order.length then
    match c.order with
    | [] => c
    | oldest :: rest => { c with entries := without c.entries oldest, order := rest }
  else c

/-- Keeps a header. One that takes the place of a kept one is as old as that one was. -/
def insert (c : HeaderCache) (w : UInt32) (h : Header) : HeaderCache :=
  if (c.find? w).isSome then { c with entries := (w, h) :: without c.entries w }
  else
    let c := c.makeRoom
    { c with entries := (w, h) :: without c.entries w, order := c.order ++ [w] }

/-- Keeps what was read of a header, if that is all of it. -/
def keep (c : HeaderCache) (w : UInt32) : Header × Option TextError → HeaderCache
  | (h, none) => c.insert w h
  | (_, some _) => c

/-- The header at an address, read from memory if it is not kept. -/
def header (c : HeaderCache) (m : Memory) (w : UInt32) : Header × HeaderCache :=
  match c.find? w with
  | some h => (h, c)
  | none => ((readHeader m w).1, c.keep w (readHeader m w))

/-- Resolves `pc` against the header at `w`; address zero means that there is none. -/
def resolve (c : HeaderCache) (m : Memory) (w : UInt32) (pc : Int32) : Location × HeaderCache :=
  if w = 0 then ({}, c)
  else
    let (h, c) := c.header m w
    (h.resolve m w pc, c)

/-- Drops the header of an address. -/
def erase (c : HeaderCache) (w : UInt32) : HeaderCache :=
  if (c.find? w).isSome then
    { c with entries := without c.entries w, order := c.order.erase w }
  else c

/-- Drops every header. -/
def clear (c : HeaderCache) : HeaderCache := { c with entries := [], order := [] }

end HeaderCache

end RegisterVM.Debug
