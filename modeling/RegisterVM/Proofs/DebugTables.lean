import RegisterVM.Debug.Header
import RegisterVM.Proofs.MemoryBytes

/-!
# Resolving what was written

Debug information that was written and placed in memory resolves every address to what its entries
say: an entry at the address itself, or else the last of those that come closest below it.

The argument goes from entries to bytes in three steps. Sorting keeps entries at one address in the
order in which they were listed, so sorted entries say the same. Entries in order say what a scan of
them finds. And the scan of the bytes is that scan: the entries that only bridge a long way repeat
the value before them, so it does not matter where among them a scan ends.
-/

namespace RegisterVM.Debug

/-! ### What entries say -/

/-- The part of a value that a table keeps: 16 bits or 8, as a number that is not negative. -/
def stored (wide : Bool) (value : Int32) : Int32 :=
  Int32.ofNat (value.toUInt32.toNat % 2 ^ (if wide then 16 else 8))

/-- What entries say about an address. Where several stand at it, the one listed first counts; where
none does, of those at the closest address below, the one listed last. No table and no order of
entries is mentioned. -/
inductive Says (entries : List TableEntry) (wide : Bool) (pc : Int32) : Int32 → Prop
  | exact {e : TableEntry} : (entries.filter fun x => x.pc = pc).head? = some e →
      Says entries wide pc (stored wide e.value)
  | below {e : TableEntry} : (∀ x ∈ entries, x.pc ≠ pc) → e.pc < pc →
      (∀ x ∈ entries, x.pc < pc → x.pc ≤ e.pc) →
      (entries.filter fun x => x.pc = e.pc).getLast? = some e →
      Says entries wide pc (stored wide e.value)
  | unknown : (∀ x ∈ entries, pc < x.pc) → Says entries wide pc (-1)

section

variable {entries : List TableEntry} {wide : Bool} {pc : Int32}

theorem mem_of_head? {k : Int32} {e : TableEntry}
    (h : (entries.filter fun x => x.pc = k).head? = some e) : e ∈ entries ∧ e.pc = k := by
  simpa using List.mem_filter.mp (List.mem_of_head? h)

theorem mem_of_getLast? {k : Int32} {e : TableEntry}
    (h : (entries.filter fun x => x.pc = k).getLast? = some e) : e ∈ entries ∧ e.pc = k := by
  simpa using List.mem_filter.mp (List.mem_of_getLast? h)

/-- Entries say one thing about an address, so that the relation can be used as a function. -/
theorem Says.unique {v v' : Int32} (h : Says entries wide pc v) (h' : Says entries wide pc v') :
    v = v' := by
  cases h with
  | exact hfirst =>
      obtain ⟨hmem, hpc⟩ := mem_of_head? hfirst
      cases h' with
      | exact hfirst' => rw [Option.some.inj (hfirst.symm.trans hfirst')]
      | below hnone => exact absurd hpc (hnone _ hmem)
      | unknown habove => exact absurd hpc.symm (Int32.ne_of_lt (habove _ hmem))
  | below hnone hlt hmax hlast =>
      obtain ⟨hmem, -⟩ := mem_of_getLast? hlast
      cases h' with
      | exact hfirst' =>
          obtain ⟨hmem', hpc'⟩ := mem_of_head? hfirst'
          exact absurd hpc' (hnone _ hmem')
      | below _ hlt' hmax' hlast' =>
          obtain ⟨hmem', -⟩ := mem_of_getLast? hlast'
          rw [Int32.le_antisymm (hmax' _ hmem hlt) (hmax _ hmem' hlt')] at hlast
          rw [Option.some.inj (hlast.symm.trans hlast')]
      | unknown habove => exact absurd (habove _ hmem) (Int32.lt_asymm hlt)
  | unknown habove =>
      cases h' with
      | exact hfirst' =>
          obtain ⟨hmem', hpc'⟩ := mem_of_head? hfirst'
          exact absurd hpc'.symm (Int32.ne_of_lt (habove _ hmem'))
      | below _ hlt' _ hlast' =>
          exact absurd (habove _ (mem_of_getLast? hlast').1) (Int32.lt_asymm hlt')
      | unknown => rfl

end

/-! ### Sorting -/

/-- The entries in address order. The sort is stable. -/
def inOrder (entries : List TableEntry) : List TableEntry :=
  entries.mergeSort fun a b => a.pc ≤ b.pc

theorem pc_le_trans (a b c : TableEntry) (hab : decide (a.pc ≤ b.pc) = true)
    (hbc : decide (b.pc ≤ c.pc) = true) : decide (a.pc ≤ c.pc) = true := by
  rw [decide_eq_true_eq] at *
  exact Int32.le_trans hab hbc

theorem pc_le_total (a b : TableEntry) : (decide (a.pc ≤ b.pc) || decide (b.pc ≤ a.pc)) = true := by
  rw [Bool.or_eq_true, decide_eq_true_eq, decide_eq_true_eq]
  exact Int32.le_total a.pc b.pc

theorem pairwise_inOrder (entries : List TableEntry) :
    (inOrder entries).Pairwise fun a b => a.pc ≤ b.pc := by
  have h := List.pairwise_mergeSort pc_le_trans pc_le_total entries
  exact h.imp fun hab => of_decide_eq_true hab

/-- Sorting keeps the order of the entries at one address. This is where stability is needed: the
first and the last of them stay what they were. -/
theorem filter_inOrder (entries : List TableEntry) (k : Int32) :
    (inOrder entries).filter (fun x => x.pc = k) = entries.filter fun x => x.pc = k := by
  have halike : (entries.filter fun x => x.pc = k).Pairwise fun a b =>
      decide (a.pc ≤ b.pc) = true := by
    refine List.pairwise_of_forall_mem_list fun a ha b hb => ?_
    have hapc : a.pc = k := by simpa using (List.mem_filter.mp ha).2
    have hbpc : b.pc = k := by simpa using (List.mem_filter.mp hb).2
    rw [hapc, hbpc]
    exact decide_eq_true (Int32.le_refl k)
  have hsublist := List.sublist_mergeSort pc_le_trans pc_le_total halike List.filter_sublist
  have hfiltered := hsublist.filter fun x => x.pc = k
  rw [List.filter_filter] at hfiltered
  simp only [Bool.and_self] at hfiltered
  refine (hfiltered.eq_of_length ?_).symm
  exact ((List.mergeSort_perm entries _).filter _).length_eq.symm

theorem mem_inOrder {entries : List TableEntry} {e : TableEntry} :
    e ∈ inOrder entries ↔ e ∈ entries :=
  List.mem_mergeSort

/-- Sorted entries say nothing else than the entries as they were listed. -/
theorem says_of_inOrder {entries : List TableEntry} {wide : Bool} {pc v : Int32}
    (h : Says (inOrder entries) wide pc v) : Says entries wide pc v := by
  cases h with
  | exact hfirst =>
      rw [filter_inOrder] at hfirst
      exact .exact hfirst
  | below hnone hlt hmax hlast =>
      rw [filter_inOrder] at hlast
      exact .below (fun x hx => hnone x (mem_inOrder.mpr hx)) hlt
        (fun x hx => hmax x (mem_inOrder.mpr hx)) hlast
  | unknown habove => exact .unknown fun x hx => habove x (mem_inOrder.mpr hx)

/-! ### Scanning entries -/

/-- A scan of entries in address order for an address, after an entry whose value is `last`. It
stops at the first entry at the address or above it. -/
def scanEntries (wide : Bool) (pc : Int32) : List TableEntry → (last : Int32) → Int32
  | [], last => last
  | e :: rest, last =>
      if e.pc > pc then last
      else if e.pc = pc then stored wide e.value
      else scanEntries wide pc rest (stored wide e.value)

section

variable {wide : Bool} {pc : Int32}

/-- The value that a scan has found after some entries: that of the last one, and -1 before the
first. -/
def lastValue (wide : Bool) (front : List TableEntry) : Int32 :=
  front.getLast?.elim (-1) fun e => stored wide e.value

/-- Between the entries below an address and those above it, what counts is the last one below. -/
theorem says_between {front rest : List TableEntry}
    (hsorted : (front ++ rest).Pairwise fun a b => a.pc ≤ b.pc) (hfront : ∀ x ∈ front, x.pc < pc)
    (hrest : ∀ x ∈ rest, pc < x.pc) : Says (front ++ rest) wide pc (lastValue wide front) := by
  rcases List.eq_nil_or_concat front with rfl | ⟨init, e, rfl⟩
  · exact .unknown hrest
  · rw [List.concat_eq_append] at hsorted hfront ⊢
    have he : e.pc < pc := hfront e (by simp)
    have hvalue : lastValue wide (init ++ [e]) = stored wide e.value := by simp [lastValue]
    rw [hvalue]
    refine .below ?_ he ?_ ?_
    · intro x hx hpc
      rcases List.mem_append.mp hx with hx | hx
      · exact Int32.ne_of_lt (hfront x hx) hpc
      · exact Int32.ne_of_lt (hrest x hx) hpc.symm
    · intro x hx hlt
      rcases List.mem_append.mp hx with hx | hx
      · rcases List.mem_append.mp hx with hx | hx
        · have hinit := (List.pairwise_append.mp (List.pairwise_append.mp hsorted).1).2.2
          exact hinit x hx e (List.mem_singleton_self e)
        · rw [List.mem_singleton.mp hx]
          exact Int32.le_refl _
      · exact absurd (hrest x hx) (Int32.lt_asymm hlt)
    · have hnone : rest.filter (fun x => x.pc = e.pc) = [] := by
        refine List.filter_eq_nil_iff.mpr fun x hx heq => ?_
        have habove := hrest x hx
        rw [of_decide_eq_true heq] at habove
        exact Int32.lt_asymm he habove
      rw [List.filter_append, hnone, List.append_nil, List.filter_append]
      simp

/-- A scan finds what entries in address order say. The entries passed so far lie below the address,
which is the invariant of the induction. -/
theorem says_scanEntries {front rest : List TableEntry}
    (hsorted : (front ++ rest).Pairwise fun a b => a.pc ≤ b.pc) (hfront : ∀ x ∈ front, x.pc < pc) :
    Says (front ++ rest) wide pc (scanEntries wide pc rest (lastValue wide front)) := by
  induction rest generalizing front with
  | nil => exact says_between hsorted hfront (by simp)
  | cons e rest ih =>
      rw [scanEntries]
      split
      · rename_i habove
        refine says_between hsorted hfront fun x hx => ?_
        rcases List.mem_cons.mp hx with rfl | hx
        · exact habove
        · have hle := (List.pairwise_cons.mp (List.pairwise_append.mp hsorted).2.1).1 x hx
          exact Int32.lt_of_lt_of_le habove hle
      · split
        · rename_i hpc
          have hnone : front.filter (fun x => x.pc = pc) = [] := by
            refine List.filter_eq_nil_iff.mpr fun x hx heq => ?_
            exact Int32.ne_of_lt (hfront x hx) (of_decide_eq_true heq)
          refine .exact ?_
          rw [List.filter_append, hnone, List.nil_append,
            List.filter_cons_of_pos (by simpa using hpc)]
          rfl
        · rename_i hle hne
          have hlt : e.pc < pc := Int32.lt_of_le_of_ne (Int32.not_lt.mp hle) hne
          have happend : front ++ e :: rest = (front ++ [e]) ++ rest := by simp
          have hvalue : stored wide e.value = lastValue wide (front ++ [e]) := by simp [lastValue]
          rw [happend] at hsorted ⊢
          rw [hvalue]
          refine ih hsorted fun x hx => ?_
          rcases List.mem_append.mp hx with hx | hx
          · exact hfront x hx
          · rwa [List.mem_singleton.mp hx]

end

/-! ### Scanning bytes -/

/-- A stream gives some bytes next. What comes after them is left open. -/
def Gives (m : Memory) : Stream → List UInt8 → Prop
  | _, [] => True
  | s, b :: rest => Stream.readByte m s = .ok (b, s.advance 1) ∧ Gives m (s.advance 1) rest

/-- A stream gives the bytes that stand in memory from its address on, as far as its limit goes. -/
theorem gives_of_readableFrom {m : Memory} (hm : m.Ordered) {address : UInt32} {remaining : Int}
    {bytes more : List UInt8} (h : m.readableFrom address = bytes ++ more)
    (hroom : address.toNat + bytes.length ≤ 2 ^ 32) (hlimit : bytes.length ≤ remaining) :
    Gives m ⟨address, remaining⟩ bytes := by
  induction bytes generalizing address remaining with
  | nil => trivial
  | cons b rest ih =>
      rw [List.length_cons] at hroom hlimit
      have hbyte : m.readByte address = .ok b := by
        rw [Memory.readByte_eq_ok_iff, h]
        rfl
      constructor
      · rw [Stream.readByte, if_neg (by dsimp only; omega), hbyte]
      · cases rest with
        | nil => trivial
        | cons next rest =>
            rw [List.length_cons] at hroom hlimit
            have hone : (address + UInt32.ofNat 1).toNat = address.toNat + 1 := by
              rw [UInt32.toNat_add, UInt32.toNat_ofNat']
              omega
            have hshift : (address + UInt32.ofNat 1).toNat - address.toNat = 1 := by omega
            have hle : address ≤ address + UInt32.ofNat 1 := UInt32.le_iff_toNat_le.mpr (by omega)
            have hnext : m.readableFrom (address + UInt32.ofNat 1) = next :: rest ++ more := by
              rw [Memory.readableFrom_add hm hle (by rw [hshift, h]; simp), hshift, h]
              rfl
            have hroom' : (address + UInt32.ofNat 1).toNat + (next :: rest).length ≤ 2 ^ 32 := by
              rw [List.length_cons]
              omega
            have hlimit' : ((next :: rest).length : Int) ≤ remaining - (1 : Nat) := by
              rw [List.length_cons]
              omega
            exact ih hnext hroom' hlimit'

section

variable {m : Memory} {wide : Bool} {pc : Int32}

/-- A value is read as far as it was kept, with zeros for the bits that were dropped. -/
theorem readValue_stored {s : Stream} {value : Int32} {more : List UInt8}
    (h : Gives m s (toBigEndian (if wide then 2 else 1) value.toUInt32.toNat ++ more)) :
    ∃ s', readValue m wide s = .ok (stored wide value, s') ∧ Gives m s' more := by
  generalize hn : value.toUInt32.toNat = n at h
  cases wide with
  | true =>
      obtain ⟨hhigh, hlow, hmore⟩ := h
      refine ⟨_, ?_, hmore⟩
      have hvalue : (UInt8.ofNat (n >>> 8)).toNat * 256 + (UInt8.ofNat (n >>> 0)).toNat =
          n % 2 ^ 16 := by
        simp only [UInt8.toNat_ofNat', Nat.shiftRight_eq_div_pow]
        omega
      simp only [readValue, hhigh, hlow, bind, Except.bind, pure, Except.pure, if_true, stored, hn]
      rw [← hvalue]
  | false =>
      obtain ⟨hbyte, hmore⟩ := h
      refine ⟨_, ?_, hmore⟩
      have hvalue : (UInt8.ofNat (n >>> 0)).toNat = n % 2 ^ 8 := by
        simp only [UInt8.toNat_ofNat', Nat.shiftRight_zero]
      simp only [readValue, hbyte, bind, Except.bind, pure, Except.pure, stored, hn,
        Bool.false_eq_true, if_false]
      rw [← hvalue]

/-- A scan of the bytes of one entry, before the scan decides whether it goes on. -/
theorem scanTable_entry {s : Stream} {advance : Nat} (hadvance : advance ≤ maxAdvance)
    {value : Int32} {more : List UInt8} (h : Gives m s (entryBytes wide advance value ++ more))
    (fuel : Nat) (now last : Int32) :
    ∃ s', Gives m s' more ∧ scanTable m wide pc (fuel + 1) s now last =
      if now + Int32.ofNat advance > pc then last
      else if now + Int32.ofNat advance = pc then stored wide value
      else scanTable m wide pc fuel s' (now + Int32.ofNat advance) (stored wide value) := by
  obtain ⟨hbyte, hvalue⟩ := h
  obtain ⟨s', hread, hmore⟩ := readValue_stored hvalue
  have hto : (UInt8.ofNat advance).toNat = advance := by
    rw [UInt8.toNat_ofNat']
    unfold maxAdvance at hadvance
    omega
  have hgoes : UInt8.ofNat advance ≠ endOfTable := by
    intro heq
    have hend : endOfTable.toNat = 255 := rfl
    rw [← heq, hto] at hend
    unfold maxAdvance at hadvance
    omega
  refine ⟨s', hmore, ?_⟩
  rw [scanTable]
  simp only [hbyte, if_neg hgoes, hread, hto]

theorem toInt_add_ofNat {now : Int32} {advance : Nat} (hnow : 0 ≤ now.toInt)
    (h : now.toInt + advance < 2 ^ 31) :
    (now + Int32.ofNat advance).toInt = now.toInt + advance := by
  have hsize : Int32.size = 2 ^ 32 := rfl
  rw [Int32.toInt_add, Int32.toInt_ofNat', hsize, Int.add_bmod_bmod]
  exact Int.bmod_eq_of_le (by omega) (by omega)

/-- A scan of the bytes that lead to an entry and name its value, those that bridge a long way
included. A bridging entry repeats the value before it, so it makes no difference whether the scan
ends there. -/
theorem scanTable_bridge (pc : Int32) {repeats advance : Nat} (hadvance : advance ≤ maxAdvance)
    (hpos : 0 < repeats → 0 < advance) {previous value now target : Int32} (hnow : 0 ≤ now.toInt)
    (htarget : target.toInt = now.toInt + (repeats * maxAdvance + advance : Nat)) {s : Stream}
    {more : List UInt8} {fuel : Nat} (hfuel : repeats + 1 + more.length ≤ fuel)
    (h : Gives m s ((List.replicate repeats (entryBytes wide maxAdvance previous)).flatten ++
      entryBytes wide advance value ++ more)) :
    ∃ fuel' s', more.length ≤ fuel' ∧ Gives m s' more ∧
      scanTable m wide pc fuel s now (stored wide previous) =
        if target > pc then stored wide previous
        else if target = pc then stored wide value
        else scanTable m wide pc fuel' s' target (stored wide value) := by
  have hlt := target.toInt_lt
  induction repeats generalizing now s fuel with
  | zero =>
      obtain ⟨fuel, rfl⟩ := Nat.exists_eq_add_of_le' (show 1 ≤ fuel by omega)
      obtain ⟨s', hmore, hscan⟩ := scanTable_entry hadvance h fuel now (stored wide previous)
      have hhere : now + Int32.ofNat advance = target := by
        apply Int32.toInt_inj.mp
        rw [toInt_add_ofNat hnow (by omega), htarget]
        omega
      rw [hhere] at hscan
      exact ⟨fuel, s', by omega, hmore, hscan⟩
  | succ repeats ih =>
      obtain ⟨fuel, rfl⟩ := Nat.exists_eq_add_of_le' (show 1 ≤ fuel by omega)
      have hadvancePos := hpos (Nat.succ_pos _)
      rw [Nat.succ_mul] at htarget
      rw [List.replicate_succ, List.flatten_cons, List.append_assoc, List.append_assoc] at h
      obtain ⟨s₁, hmore, hscan⟩ :=
        scanTable_entry (Nat.le_refl maxAdvance) h fuel now (stored wide previous)
      have hhere := toInt_add_ofNat hnow (show now.toInt + (maxAdvance : Nat) < 2 ^ 31 by omega)
      rw [← List.append_assoc] at hmore
      generalize now + Int32.ofNat maxAdvance = here at hscan hhere
      have hrest : target.toInt = here.toInt + (repeats * maxAdvance + advance : Nat) := by
        push_cast at htarget ⊢
        omega
      obtain ⟨fuel', s', hfuel', hmore', hscan'⟩ :=
        ih (fun _ => hadvancePos) (by omega) hrest
          (show repeats + 1 + more.length ≤ fuel by omega) hmore
      refine ⟨fuel', s', hfuel', hmore', ?_⟩
      -- a scan that ends at or before the bridging entry has the value that it repeats
      have hbefore : here < target := Int32.lt_iff_toInt_lt.mpr (by omega)
      rw [hscan, hscan']
      by_cases habove : here > pc
      · rw [if_pos habove, if_pos (Int32.lt_trans habove hbefore)]
      · rw [if_neg habove]
        by_cases hpc : here = pc
        · rw [if_pos hpc, if_pos (hpc ▸ hbefore)]
        · rw [if_neg hpc]

/-- The bytes of an advance: entries that bridge the way as far as one advance does not reach, and
the entry itself. A last advance of zero occurs only without bridging entries, so entries at one
address stay together. -/
theorem advanceBytes_eq (wide : Bool) (previous value : Int32) (distance : Nat) :
    ∃ repeats advance, advance ≤ maxAdvance ∧ (0 < repeats → 0 < advance) ∧
      distance = repeats * maxAdvance + advance ∧
      advanceBytes wide previous value distance =
        (List.replicate repeats (entryBytes wide maxAdvance previous)).flatten ++
          entryBytes wide advance value := by
  unfold advanceBytes
  split
  · rename_i hle
    exact ⟨0, distance, hle, by simp, by simp, rfl⟩
  · rename_i hlong
    have hdivision := Nat.div_add_mod (distance - 1) maxAdvance
    have hmod := Nat.mod_lt (distance - 1) (show 0 < maxAdvance by decide)
    rw [Nat.mul_comm] at hdivision
    exact ⟨(distance - 1) / maxAdvance, distance - (distance - 1) / maxAdvance * maxAdvance,
      by omega, by omega, by omega, rfl⟩

/-- There are no more bridging entries than bytes, so a scan with fuel for the bytes has enough. -/
theorem repeats_le_length (repeats : Nat) (entry last : List UInt8) (hentry : 0 < entry.length)
    (hlast : 0 < last.length) :
    repeats + 1 ≤ ((List.replicate repeats entry).flatten ++ last).length := by
  have hmul := Nat.le_mul_of_pos_right repeats hentry
  rw [List.length_append, List.length_flatten, List.map_replicate, List.sum_replicate, smul_eq_mul]
  omega

/-- A scan of the bytes of entries in address order is a scan of the entries. The induction is on
the entries, with the position and the value of the last one carried along. -/
theorem scanTable_entriesBytes {rest : List TableEntry} {e : TableEntry}
    (hsorted : (e :: rest).Pairwise fun a b => a.pc ≤ b.pc) (he : 0 ≤ e.pc.toInt) {s : Stream}
    {fuel : Nat} (hfuel : (entriesBytes wide e rest).length ≤ fuel)
    (h : Gives m s (entriesBytes wide e rest)) :
    scanTable m wide pc fuel s e.pc (stored wide e.value) =
      scanEntries wide pc rest (stored wide e.value) := by
  induction rest generalizing e s fuel with
  | nil =>
      obtain ⟨fuel, rfl⟩ := Nat.exists_eq_add_of_le' (show 1 ≤ fuel from hfuel)
      rw [scanTable, h.1, scanEntries]
      simp only [if_true]
  | cons next rest ih =>
      obtain ⟨hfirst, hrest⟩ := List.pairwise_cons.mp hsorted
      have hle := Int32.le_iff_toInt_le.mp (hfirst next List.mem_cons_self)
      rw [entriesBytes] at h hfuel
      obtain ⟨repeats, advance, hadvance, hpos, hdistance, hbytes⟩ :=
        advanceBytes_eq wide e.value next.value (next.pc.toInt - e.pc.toInt).toNat
      have htarget : next.pc.toInt = e.pc.toInt + (repeats * maxAdvance + advance : Nat) := by
        rw [← hdistance]
        omega
      have hlength := repeats_le_length repeats (entryBytes wide maxAdvance e.value)
        (entryBytes wide advance next.value) (by simp [entryBytes]) (by simp [entryBytes])
      rw [hbytes] at h hfuel
      rw [List.length_append] at hfuel
      obtain ⟨fuel', s', hfuel', hmore, hscan⟩ :=
        scanTable_bridge pc hadvance hpos he htarget
          (show repeats + 1 + (entriesBytes wide next rest).length ≤ fuel by omega) h
      rw [hscan, scanEntries, ih hrest (by omega) hfuel' hmore]

/-- A look-up in the bytes of a table is a scan of its entries. -/
theorem lookup_eq {entries : List TableEntry} {table : List UInt8}
    (htable : tableBytes wide entries = .ok table) (hlength : table.length ≤ tableLimit.toNat)
    {address : UInt32} (h : Gives m ⟨address, tableLimit⟩ table) :
    lookup m address wide pc = scanEntries wide pc (inOrder entries) (-1) := by
  have hsorted := pairwise_inOrder entries
  have hlimit : tableLimit.toNat = 4095 + 1 := rfl
  rw [hlimit] at hlength
  unfold tableBytes at htable
  rw [lookup, hlimit]
  cases hentries : inOrder entries with
  | nil =>
      unfold inOrder at hentries
      rw [hentries] at htable
      cases htable
      rw [scanTable, h.1, scanEntries]
      simp only [if_true]
  | cons first rest =>
      rw [hentries] at hsorted
      unfold inOrder at hentries
      rw [hentries] at htable
      dsimp only at htable
      split at htable
      · cases htable
      · rename_i hnegative
        split at htable
        · cases htable
        · rename_i hgap
          cases htable
          have hpc : 0 ≤ first.pc.toInt := by
            have hzero : (0 : Int32).toInt = 0 := rfl
            rw [Int32.lt_iff_toInt_lt] at hnegative
            omega
          obtain ⟨s, hmore, hscan⟩ :=
            scanTable_entry (Nat.le_of_not_lt hgap) h 4095 (0 : Int32) (-1 : Int32)
          have hhere : (0 : Int32) + Int32.ofNat first.pc.toInt.toNat = first.pc := by
            have hlt := first.pc.toInt_lt
            have hzero : (0 : Int32).toInt = 0 := rfl
            apply Int32.toInt_inj.mp
            rw [toInt_add_ofNat (by omega) (by omega)]
            omega
          have hfuel : (entriesBytes wide first rest).length ≤ 4095 := by
            rw [List.length_append, entryBytes, List.length_cons] at hlength
            omega
          rw [hscan, hhere, scanEntries, scanTable_entriesBytes hsorted hpc hfuel hmore]

/-- A look-up in a table that stands in memory finds what its entries say. The limit on its length
is that of the reader, which gives up after so many bytes. -/
theorem says_lookup {entries : List TableEntry} {table : List UInt8}
    (htable : tableBytes wide entries = .ok table) (hlength : table.length ≤ tableLimit.toNat)
    {address : UInt32} (h : Gives m ⟨address, tableLimit⟩ table) (pc : Int32) :
    Says entries wide pc (lookup m address wide pc) := by
  apply says_of_inOrder
  rw [lookup_eq htable hlength h]
  exact says_scanEntries (pairwise_inOrder entries) (List.forall_mem_nil _)

end

/-! ### Layout -/

/-- Where a table was laid out among bytes from the offset `start` on: one without entries nowhere,
any other at an offset that a header can say. Offset zero stands for a table that is absent. -/
inductive LaidAt (start : Nat) (bytes : List UInt8) : List TableEntry × Bool → Nat → Prop
  | absent (wide : Bool) : LaidAt start bytes ([], wide) 0
  | present {entries : List TableEntry} {wide : Bool} {before table more : List UInt8} :
      tableBytes wide entries = .ok table → bytes = before ++ table ++ more →
      start + before.length ≤ 0x7FFF → LaidAt start bytes (entries, wide) (start + before.length)

theorem LaidAt.after {start : Nat} {front bytes : List UInt8} {table : List TableEntry × Bool}
    {offset : Nat} (h : LaidAt (start + front.length) bytes table offset) :
    LaidAt start (front ++ bytes) table offset := by
  cases h with
  | absent wide => exact .absent wide
  | @present entries wide before table more htable hbytes hoffset =>
      have hstart : start + front.length + before.length = start + (front ++ before).length := by
        rw [List.length_append, Nat.add_assoc]
      rw [hstart] at hoffset ⊢
      have hsplit : front ++ bytes = (front ++ before) ++ table ++ more := by simp [hbytes]
      exact .present htable hsplit hoffset

/-- Tables are laid out one after another, each where its offset says. -/
theorem layoutTables_laidAt {tables : List (List TableEntry × Bool)} {index start : Nat}
    {offsets : List Nat} {bytes : List UInt8}
    (h : layoutTables index start tables = .ok (offsets, bytes)) :
    List.Forall₂ (LaidAt start bytes) tables offsets := by
  induction tables generalizing index start offsets bytes with
  | nil =>
      cases h
      exact .nil
  | cons table rest ih =>
      obtain ⟨entries, wide⟩ := table
      rw [layoutTables] at h
      split at h
      · rename_i hempty
        obtain ⟨⟨others, following⟩, hrest, h⟩ := bind_eq_ok h
        cases h
        rw [List.isEmpty_iff.mp hempty]
        exact .cons (.absent wide) (ih hrest)
      · split at h
        · cases h
        · rename_i hoffset
          split at h
          · cases h
          · rename_i code hcode
            obtain ⟨⟨others, following⟩, hrest, h⟩ := bind_eq_ok h
            cases h
            refine .cons ?_ ((ih hrest).imp fun _ _ hlaid => hlaid.after)
            have hfirst : code ++ following = [] ++ code ++ following := rfl
            exact .present hcode hfirst (Nat.le_of_not_lt hoffset)

theorem LaidAt.offset_le {start : Nat} {bytes : List UInt8} {table : List TableEntry × Bool}
    {offset : Nat} (h : LaidAt start bytes table offset) : offset ≤ 0x7FFF := by
  cases h with
  | absent => omega
  | present _ _ hoffset => exact hoffset

/-! ### Headers -/

section

variable {m : Memory} {w : UInt32} {bytes : List UInt8}

/-- A number that stands in placed bytes is read from memory. -/
theorem readNat_placed (hm : m.Ordered) (hread : m.read w bytes.length = .ok bytes)
    (hroom : w.toNat + bytes.length ≤ 2 ^ 32) {o count : Nat} (hcount : 0 < count)
    (ho : o + count ≤ bytes.length) :
    m.readNat (w + UInt32.ofNat o) count = .ok (bigEndian ((bytes.drop o).take count)) := by
  obtain ⟨more, hmore⟩ := Memory.readableFrom_placed hm hread hroom (show o < bytes.length by omega)
  have hlength : count ≤ (bytes.drop o).length := by
    rw [List.length_drop]
    omega
  have hle : count ≤ (m.readableFrom (w + UInt32.ofNat o)).length := by
    rw [hmore, List.length_append]
    omega
  rw [Memory.readNat, Memory.read_eq_ok hcount hle, hmore, List.take_append_of_le_length hlength]
  rfl

/-- The offsets of a header do not depend on its names, not even if reading those fails. -/
theorem readHeader_offsets {x y z : Int16} (hx : readOffset m w 0 = .ok x)
    (hy : readOffset m w 2 = .ok y) (hz : readOffset m w 4 = .ok z) :
    (readHeader m w).1.lineTable = x ∧ (readHeader m w).1.instructionTable = y ∧
      (readHeader m w).1.addressTable = z := by
  unfold readHeader
  simp only [hx, hy, hz]
  split
  · exact ⟨rfl, rfl, rfl⟩
  · split
    · exact ⟨rfl, rfl, rfl⟩
    · split <;> exact ⟨rfl, rfl, rfl⟩

theorem toInt_offset {offset : Nat} (h : offset ≤ 0x7FFF) :
    (Int16.ofNat offset).toInt = offset := by
  have hsize : Int16.size = 2 ^ 16 := rfl
  rw [Int16.toInt_ofNat', hsize]
  exact Int.bmod_eq_of_le (by omega) (by omega)

/-- An offset that fits is added as it is. A larger one would be taken for a negative number. -/
theorem toUInt32_offset {offset : Nat} (h : offset ≤ 0x7FFF) :
    (Int16.ofNat offset).toInt32.toUInt32 = UInt32.ofNat offset := by
  have hint : (Int16.ofNat offset).toInt32.toInt = offset := by
    rw [Int16.toInt_toInt32, toInt_offset h]
  have hnonneg : 0 ≤ (Int16.ofNat offset).toInt32 := by
    have hzero : (0 : Int32).toInt = 0 := rfl
    rw [Int32.le_iff_toInt_le]
    omega
  apply UInt32.toNat_inj.mp
  rw [Int32.toNat_toUInt32_of_le hnonneg, ← Int32.toNat_toInt, hint, UInt32.toNat_ofNat']
  omega

/-- A look-up through an offset of a header finds what the entries of that table say. A table that
is absent has no entries, and an offset of zero finds nothing. -/
theorem says_lookupAt (hm : m.Ordered) (hread : m.read w bytes.length = .ok bytes)
    (hroom : w.toNat + bytes.length ≤ 2 ^ 32) {front tables : List UInt8} (hfront : front ≠ [])
    (hbytes : bytes = front ++ tables) {entries : List TableEntry} {wide : Bool} {offset : Nat}
    (hlaid : LaidAt front.length tables (entries, wide) offset)
    (hlength : ∀ table, tableBytes wide entries = .ok table → table.length ≤ tableLimit.toNat)
    (pc : Int32) : Says entries wide pc (lookupAt m w (Int16.ofNat offset) wide pc) := by
  have hpos := List.length_pos_iff.mpr hfront
  cases hlaid with
  | absent => exact .unknown (by simp)
  | @present _ _ before table more htable hmore hoffset =>
      have hdrop : bytes.drop (front.length + before.length) = table ++ more := by
        rw [hbytes, hmore, ← List.drop_drop, List.drop_left, List.append_assoc, List.drop_left]
      generalize hoffsetEq : front.length + before.length = offset at hoffset hdrop
      have hne : Int16.ofNat offset ≠ 0 := by
        intro hzero
        have hint := toInt_offset hoffset
        rw [hzero] at hint
        have hzeroInt : (0 : Int16).toInt = 0 := rfl
        omega
      have htotal : bytes.length = offset + table.length + more.length := by
        rw [hbytes, hmore]
        simp only [List.length_append]
        omega
      have hshort := hlength table htable
      rw [lookupAt, if_neg hne, toUInt32_offset hoffset]
      refine says_lookup htable hshort ?_ pc
      by_cases hempty : table = []
      · rw [hempty]
        trivial
      · have htablePos := List.length_pos_iff.mpr hempty
        obtain ⟨others, hothers⟩ :=
          Memory.readableFrom_placed hm hread hroom (show offset < bytes.length by omega)
        rw [hdrop, List.append_assoc] at hothers
        have hto : (w + UInt32.ofNat offset).toNat = w.toNat + offset := by
          rw [UInt32.toNat_add, UInt32.toNat_ofNat']
          omega
        exact gives_of_readableFrom hm hothers (by omega) (by unfold tableLimit at *; omega)

end

/-- The tables of a method, each with whether its values are wide. -/
def Method.tables (method : Method) : List (List TableEntry × Bool) :=
  [(method.lines, true), (method.instructions, false), (method.addresses, false)]

/-- A header that stands in memory has the offsets that were written. -/
theorem readOffset_placed {m : Memory} {w : UInt32} {bytes : List UInt8} (hm : m.Ordered)
    (hread : m.read w bytes.length = .ok bytes) (hroom : w.toNat + bytes.length ≤ 2 ^ 32)
    (skip : Nat) {offset : Nat} (hoffset : offset ≤ 0x7FFF) (hskip : skip + 2 ≤ bytes.length)
    (hfound : (bytes.drop skip).take 2 = toBigEndian 2 offset) :
    readOffset m w (UInt32.ofNat skip) = .ok (Int16.ofNat offset) := by
  rw [readOffset, readNat_placed hm hread hroom (by decide) hskip, hfound, bigEndian_toBigEndian,
    Nat.mod_eq_of_lt (by omega)]

/-- What was written is a header with the offsets of the three tables, names, and the tables where
those offsets say. It is the only place that opens the writer. -/
theorem bytes_inv {method : Method} {bytes : List UInt8} (h : method.bytes = .ok bytes) :
    ∃ front tables names line instruction address, bytes = front ++ tables ∧
      front = toBigEndian 2 line ++ toBigEndian 2 instruction ++ toBigEndian 2 address ++ names ∧
      LaidAt front.length tables (method.lines, true) line ∧
      LaidAt front.length tables (method.instructions, false) instruction ∧
      LaidAt front.length tables (method.addresses, false) address := by
  obtain ⟨names, -, hrest⟩ := bind_eq_ok h
  obtain ⟨⟨offsets, tables⟩, hlayout, hlast⟩ := bind_eq_ok hrest
  obtain _ | ⟨hline, _ | ⟨hinstruction, _ | ⟨haddress, ⟨⟩⟩⟩⟩ := layoutTables_laidAt hlayout
  rename_i line instruction address
  cases hlast
  refine ⟨_, tables, names, line, instruction, address, ?_, rfl, ?_⟩
  · simp only [List.flatMap_cons, List.flatMap_nil, List.append_nil, List.append_assoc]
  · simp only [List.length_append, length_toBigEndian]
    exact ⟨hline, hinstruction, haddress⟩

/-- Debug information that was written, and placed where it can be read, resolves every address to
what the entries of each table say about it.

The proof goes by the three steps of this module for each table in turn; the tables are independent
of each other once `bytes_inv` has said where they are. -/
theorem resolve_says_written {method : Method} {bytes : List UInt8}
    (hbytes : method.bytes = .ok bytes)
    (hlength : ∀ entries wide, (entries, wide) ∈ method.tables → ∀ table,
      tableBytes wide entries = .ok table → table.length ≤ 4096)
    {m : Memory} (hm : m.Built) {w : UInt32} (hw : 0 < w) (hroom : w.toNat + bytes.length ≤ 2 ^ 32)
    (hread : m.read w bytes.length = .ok bytes) (pc v : Int32) :
    ((resolve m w pc).line = v ↔ Says method.lines true pc v) ∧
      ((resolve m w pc).instruction = v ↔ Says method.instructions false pc v) ∧
      ((resolve m w pc).address = v ↔ Says method.addresses false pc v) := by
  obtain ⟨front, tables, names, line, instruction, address, hsplit, hfront, hline, hinstruction,
    haddress⟩ := bytes_inv hbytes
  have hordered := hm.ordered
  have htotal : 6 ≤ bytes.length := by
    simp only [hsplit, hfront, List.length_append, length_toBigEndian]
    omega
  obtain ⟨hlineTable, hinstructionTable, haddressTable⟩ := readHeader_offsets
    (readOffset_placed hordered hread hroom 0 hline.offset_le (by omega)
      (by rw [hsplit, hfront]; rfl))
    (readOffset_placed hordered hread hroom 2 hinstruction.offset_le (by omega)
      (by rw [hsplit, hfront]; rfl))
    (readOffset_placed hordered hread hroom 4 haddress.offset_le (by omega)
      (by rw [hsplit, hfront]; rfl))
  have hanswer {entries : List TableEntry} {wide : Bool} {offset : Nat}
      (hlaid : LaidAt front.length tables (entries, wide) offset)
      (hmem : (entries, wide) ∈ method.tables) :
      lookupAt m w (Int16.ofNat offset) wide pc = v ↔ Says entries wide pc v := by
    have hfound := says_lookupAt hordered hread hroom (by simp [hfront, toBigEndian]) hsplit hlaid
      (hlength entries wide hmem) pc
    constructor
    · rintro rfl
      exact hfound
    · exact hfound.unique
  rw [resolve, if_neg (UInt32.ne_of_lt hw).symm, Header.resolve, hlineTable, hinstructionTable,
    haddressTable]
  exact ⟨hanswer hline (by simp [Method.tables]), hanswer hinstruction (by simp [Method.tables]),
    hanswer haddress (by simp [Method.tables])⟩

/-- Lines out of order, two of them at one address, a long way before the last one, and values that
are too large; no instructions. So every rule of `Says` and every shape of the tables has its
case. -/
def outOfOrder : Method where
  className := ['A']
  lines := [⟨300, 70000⟩, ⟨4, 1⟩, ⟨4, 2⟩]
  addresses := [⟨0, 300⟩]

/-- The debug information of `outOfOrder`. -/
def outOfOrderBytes : List UInt8 :=
  [0, 13, 0, 0, 0, 26, 0, 1, 65, 0, 0, 0, 0, 4, 0, 1, 0, 0, 2, 254, 0, 2, 42, 17, 112,
    255, 0, 44, 255]

/-- The last region of the address space, with the debug information at its end. -/
def outOfOrderMemory : Memory := .region (.ofBytes "debug" 0xFFFFFFE3 outOfOrderBytes ⟨true, false⟩)

theorem resolve_says_written_outOfOrder :
    outOfOrder.bytes = .ok outOfOrderBytes ∧
      (∀ pc v,
        ((resolve outOfOrderMemory 0xFFFFFFE3 pc).line = v ↔ Says outOfOrder.lines true pc v) ∧
        ((resolve outOfOrderMemory 0xFFFFFFE3 pc).instruction = v ↔
          Says outOfOrder.instructions false pc v) ∧
        ((resolve outOfOrderMemory 0xFFFFFFE3 pc).address = v ↔
          Says outOfOrder.addresses false pc v)) ∧
      Says outOfOrder.lines true 4 1 ∧ Says outOfOrder.lines true 299 2 ∧
      Says outOfOrder.lines true 300 4464 ∧ Says outOfOrder.lines true 3 (-1) := by
  have hbytes : outOfOrder.bytes = .ok outOfOrderBytes := by cbv
  have hlines : tableBytes true outOfOrder.lines =
      .ok [4, 0, 1, 0, 0, 2, 254, 0, 2, 42, 17, 112, 255] := by cbv
  have hinstructions : tableBytes false outOfOrder.instructions = .ok [255] := by cbv
  have haddresses : tableBytes false outOfOrder.addresses = .ok [0, 44, 255] := by cbv
  have hlength : ∀ entries wide, (entries, wide) ∈ outOfOrder.tables → ∀ table,
      tableBytes wide entries = .ok table → table.length ≤ 4096 := by
    intro entries wide hmem table htable
    simp only [Method.tables, List.mem_cons, Prod.mk.injEq, List.not_mem_nil, or_false] at hmem
    rcases hmem with ⟨rfl, rfl⟩ | ⟨rfl, rfl⟩ | ⟨rfl, rfl⟩
    · cases hlines.symm.trans htable
      decide
    · cases hinstructions.symm.trans htable
      decide
    · cases haddresses.symm.trans htable
      decide
  have hbuilt : outOfOrderMemory.Built := .region _
  have hplace : 0 < (0xFFFFFFE3 : UInt32) := by decide
  have hresolve := resolve_says_written hbytes hlength hbuilt hplace (by decide) (by decide)
  refine ⟨hbytes, hresolve, ?_⟩
  exact ⟨(hresolve 4 1).1.mp (by decide +kernel), (hresolve 299 2).1.mp (by decide +kernel),
    (hresolve 300 4464).1.mp (by decide +kernel), (hresolve 3 (-1)).1.mp (by decide +kernel)⟩

end RegisterVM.Debug
