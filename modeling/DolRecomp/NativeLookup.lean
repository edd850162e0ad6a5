import DolRecomp.NativeTable

/-!
# Lookups through the shared cache, and the entry map

Lookups of any number of threads run against one cache of packed words. The
bitmap of entry points is filled in one pass over the ranges and the entries.
-/

namespace DolRecomp

open Threads

namespace NativeLookup

/-- `moderngekko_native_lookup`: 4096 words, an address above its index plus one. -/
abbrev Cache := BitVec 12 → BitVec 64

def slotOf (address : BitVec 32) : BitVec 12 := (address >>> 2).truncate 12

def pack (address : BitVec 32) (index : ℕ) : BitVec 64 :=
  (address.zeroExtend 64 <<< 32) ||| BitVec.ofNat 64 (index + 1)

def cachedAddress (word : BitVec 64) : BitVec 32 := (word >>> 32).truncate 32
def cachedIndex (word : BitVec 64) : BitVec 32 := word.truncate 32

/-- A call of `moderngekko_native_find`: before its load, before its store, or returned. -/
inductive Find
  | load (address : BitVec 32)
  | store (address : BitVec 32) (index : ℕ)
  | done (address : BitVec 32) (result : Option ℕ)

def Find.next (table : NativeTable) (cache : Cache) : Find → Option (Find × Cache)
  | .load address =>
    let cached := cache (slotOf address)
    if cachedAddress cached = address ∧ cachedIndex cached ≠ 0 then
      some (.done address (some ((cachedIndex cached).toNat - 1)), cache)
    else
      match NativeTable.search table.ranges address with
      | some index => some (.store address index, cache)
      | none => some (.done address none, cache)
  | .store address index =>
    some (.done address (some index), Function.update cache (slotOf address) (pack address index))
  | .done .. => none

/-- Lookups of any addresses, in any number. -/
def system (table : NativeTable) : System Cache Find where
  act c t cache t' := t.next table c.shared = some (t', cache)
  env _ _ := False
  new _ t := ∃ address, t = .load address

/-- No lookup yet, and an empty cache. -/
def initial : Config Cache Find := ⟨fun _ => 0,[]⟩

variable (table : NativeTable)

/-- A word with an index answers for its address. -/
def WordOk (word : BitVec 64) : Prop :=
  cachedIndex word ≠ 0 →
    NativeTable.search table.ranges (cachedAddress word) = some ((cachedIndex word).toNat - 1)

def FindOk : Find → Prop
  | .load _ => True
  | .store address index => NativeTable.search table.ranges address = some index
  | .done address result => NativeTable.search table.ranges address = result

/-- Every word and every lookup agree with the search. -/
structure Sound (c : Config Cache Find) : Prop where
  words : ∀ slot, WordOk table (c.shared slot)
  finds : ∀ t ∈ c.ops, FindOk table t

theorem cachedAddress_pack (address : BitVec 32) {index : ℕ} (h : index + 1 < 2 ^ 32) :
    cachedAddress (pack address index) = address := by
  apply BitVec.eq_of_getLsbD_eq
  intro k hk
  have hs : (index + 1).testBit (32 + k) = false :=
    Nat.testBit_lt_two_pow (Nat.lt_of_lt_of_le h (Nat.pow_le_pow_right (by decide) (by omega)))
  have h64 : 32 + k < 64 := by omega
  simp only [cachedAddress,pack,BitVec.truncate_eq_setWidth,BitVec.getLsbD_setWidth,hk,
    BitVec.getLsbD_ushiftRight,BitVec.getLsbD_or,BitVec.getLsbD_shiftLeft,h64,
    BitVec.getLsbD_ofNat,hs]
  simp [hk,show k < 64 by omega]

theorem cachedIndex_pack (address : BitVec 32) (index : ℕ) :
    cachedIndex (pack address index) = BitVec.ofNat 32 (index + 1) := by
  apply BitVec.eq_of_getLsbD_eq
  intro k hk
  simp [cachedIndex,pack,hk]

theorem wordOk_pack {address : BitVec 32} {index : ℕ}
    (h : NativeTable.search table.ranges address = some index) : WordOk table (pack address index) := by
  have hlt := table.search_lt h
  have hshort := table.short
  have hi : index + 1 < 2 ^ 32 := by omega
  intro _
  rw [cachedAddress_pack address hi,cachedIndex_pack,BitVec.toNat_ofNat,Nat.mod_eq_of_lt hi]
  exact h

theorem wordOk_zero : WordOk table 0 := fun h => absurd rfl h

theorem sound_initial : Sound table initial :=
  ⟨fun _ => wordOk_zero table,fun _ h => nomatch h⟩

theorem sound_step {c c' : Config Cache Find} (hc : Sound table c)
    (h : Step (system table) c c') : Sound table c' := by
  cases h with
  | env h => exact h.elim
  | new h =>
    obtain ⟨address,rfl⟩ := h
    exact ⟨hc.words,forall_append hc.finds trivial⟩
  | @act k t t' cache hk h =>
    have ht := hc.finds t (mem_of_get hk)
    change t.next table c.shared = some (t', cache) at h
    cases t with
    | load address =>
      rw [Find.next] at h
      by_cases hhit : cachedAddress (c.shared (slotOf address)) = address ∧
          cachedIndex (c.shared (slotOf address)) ≠ 0
      · rw [if_pos hhit] at h
        cases h
        have hw := hc.words (slotOf address) hhit.2
        rw [hhit.1] at hw
        exact ⟨hc.words,forall_set hc.finds hw⟩
      · rw [if_neg hhit] at h
        rcases hs : NativeTable.search table.ranges address with _ | index
        · rw [hs] at h
          cases h
          exact ⟨hc.words,forall_set hc.finds hs⟩
        · rw [hs] at h
          cases h
          exact ⟨hc.words,forall_set hc.finds hs⟩
    | store address index =>
      cases h
      refine ⟨fun slot => ?_,forall_set hc.finds ht⟩
      by_cases hslot : slot = slotOf address
      · rw [hslot]
        show WordOk table (Function.update c.shared _ _ _)
        rw [Function.update_self]
        exact wordOk_pack table ht
      · show WordOk table (Function.update c.shared _ _ _)
        rw [Function.update_of_ne hslot]
        exact hc.words slot
    | done => cases h

theorem sound_run {c : Config Cache Find} (h : Run (system table) initial c) : Sound table c :=
  h.invariant (fun _ _ hc hs => sound_step table hc hs) (sound_initial table)

/-- `moderngekko_native_entry_bits` -/
abbrev Bits := ℕ → BitVec 64

/-- The last bit of the shifted word. -/
def testBit (bits : Bits) (bit : ℕ) : Bool := (bits (bit / 64) >>> (bit % 64)).getLsbD 0

def setBit (bits : Bits) (bit : ℕ) : Bits :=
  Function.update bits (bit / 64) (bits (bit / 64) ||| (1#64 <<< (bit % 64)))

/-- The word of an address in a range. -/
def wordIndex (range : NativeRange) (address : BitVec 32) : ℕ := (address - range.start).toNat / 4

def aligned (range : NativeRange) (address : BitVec 32) : Bool :=
  (address - range.start) &&& 3#32 = 0#32

/-- The entries below the end of a range are used up; those in it set their bit. -/
def fillRange (range : NativeRange) (base : ℕ) : List (BitVec 32) → Bits → List (BitVec 32) × Bits
  | [], bits => ([], bits)
  | address :: entries, bits =>
    if address < range.endAddr then
      fillRange range base entries
        (if range.start ≤ address ∧ aligned range address then
          setBit bits (base + wordIndex range address) else bits)
    else (address :: entries, bits)

structure EntryMap where
  offsets : List ℕ
  bits : Bits

def fillRanges : List NativeRange → ℕ → List (BitVec 32) → Bits → EntryMap
  | [], _, _, bits => ⟨[], bits⟩
  | range :: ranges, base, entries, bits =>
    let filled := fillRange range base entries bits
    let rest := fillRanges ranges (base + range.words) filled.1 filled.2
    ⟨base :: rest.offsets, rest.bits⟩

/-- Fails when the words of all ranges do not fit a 32-bit count. -/
def emitEntryMap (ranges : List NativeRange) (entries : List (BitVec 32)) : Option EntryMap :=
  if 2 ^ 32 ≤ (ranges.map NativeRange.words).sum then none
  else some (fillRanges ranges 0 entries fun _ => 0)

/-- `moderngekko_native_supports_entry`, from the answer of the lookup on. -/
def supportsEntry (table : NativeTable) (map : EntryMap) (address : BitVec 32) :
    Option ℕ → Bool
  | none => false
  | some index =>
    match table.ranges[index]? with
    | none => false
    | some range =>
      aligned range address && testBit map.bits (map.offsets.getD index 0 + wordIndex range address)

@[simp] theorem testBit_zero (bit : ℕ) : testBit (fun _ => 0) bit = false := by
  simp [testBit]

theorem testBit_setBit (bits : Bits) (bit n : ℕ) :
    testBit (setBit bits bit) n = true ↔ testBit bits n = true ∨ n = bit := by
  simp only [testBit,setBit,BitVec.getLsbD_ushiftRight,Nat.add_zero,Function.update_apply]
  by_cases hw : n / 64 = bit / 64
  · have hlt : n % 64 < 64 := Nat.mod_lt _ (by decide)
    have hb : (1#64 <<< (bit % 64)).getLsbD (n % 64) = decide (n % 64 = bit % 64) := by
      rw [← BitVec.twoPow_eq,BitVec.getLsbD_twoPow]
      simp [eq_comm,Nat.mod_lt]
    rw [if_pos hw,BitVec.getLsbD_or,hb,hw,Bool.or_eq_true,decide_eq_true_iff]
    have : n % 64 = bit % 64 ↔ n = bit := by omega
    rw [this]
  · have hne : n ≠ bit := fun h => hw (by rw [h])
    rw [if_neg hw]
    simp [hne]

def Sets (range : NativeRange) (base : ℕ) (entries : List (BitVec 32)) (n : ℕ) : Prop :=
  ∃ e ∈ entries, range.Contains e ∧ aligned range e = true ∧ n = base + wordIndex range e

theorem fillRange_rest (range : NativeRange) (base : ℕ) (entries : List (BitVec 32)) (bits : Bits)
    (hs : entries.Pairwise (· ≤ ·)) (e : BitVec 32) :
    e ∈ (fillRange range base entries bits).1 ↔ e ∈ entries ∧ range.endAddr ≤ e := by
  induction entries generalizing bits with
  | nil => simp [fillRange]
  | cons a entries ih =>
    rw [fillRange]
    rw [List.pairwise_cons] at hs
    by_cases ha : a < range.endAddr
    · rw [if_pos ha,ih _ hs.2,List.mem_cons]
      constructor
      · exact fun h => ⟨.inr h.1,h.2⟩
      · rintro ⟨rfl | h,he⟩
        · exact absurd ha (BitVec.not_lt.2 he)
        · exact ⟨h,he⟩
    · rw [if_neg ha]
      refine ⟨fun h => ⟨h,?_⟩,fun h => h.1⟩
      have hle := BitVec.not_lt.1 ha
      rcases List.mem_cons.1 h with rfl | h
      · exact hle
      · exact BitVec.le_trans hle (hs.1 e h)

theorem fillRange_pairwise (range : NativeRange) (base : ℕ) (entries : List (BitVec 32))
    (bits : Bits) (hs : entries.Pairwise (· ≤ ·)) :
    (fillRange range base entries bits).1.Pairwise (· ≤ ·) := by
  induction entries generalizing bits with
  | nil => exact hs
  | cons a entries ih =>
    rw [fillRange]
    split
    · exact ih _ (List.pairwise_cons.1 hs).2
    · exact hs

theorem fillRange_bits (range : NativeRange) (base : ℕ) (entries : List (BitVec 32)) (bits : Bits)
    (hs : entries.Pairwise (· ≤ ·)) (n : ℕ) :
    testBit (fillRange range base entries bits).2 n = true ↔
      testBit bits n = true ∨ Sets range base entries n := by
  induction entries generalizing bits with
  | nil => simp [fillRange,Sets]
  | cons a entries ih =>
    rw [fillRange]
    rw [List.pairwise_cons] at hs
    by_cases ha : a < range.endAddr
    · have hcons : Sets range base (a :: entries) n ↔
          (range.start ≤ a ∧ aligned range a = true ∧ n = base + wordIndex range a) ∨
            Sets range base entries n := by
        simp [Sets,NativeRange.Contains,ha]
      rw [if_pos ha,ih _ hs.2,hcons]
      by_cases hset : range.start ≤ a ∧ aligned range a = true
      · rw [if_pos hset,testBit_setBit]
        simp only [hset.1,hset.2,true_and,or_assoc]
      · rw [if_neg hset]
        constructor
        · rintro (h | h)
          · exact .inl h
          · exact .inr (.inr h)
        · rintro (h | ⟨h1,h2,-⟩ | h)
          · exact .inl h
          · exact absurd ⟨h1,h2⟩ hset
          · exact .inr h
    · rw [if_neg ha]
      refine ⟨.inl,?_⟩
      rintro (h | ⟨e,he,hc,-⟩)
      · exact h
      · have hle := BitVec.not_lt.1 ha
        rcases List.mem_cons.1 he with rfl | he
        · exact absurd hc.2 ha
        · exact absurd hc.2 (BitVec.not_lt.2 (BitVec.le_trans hle (hs.1 e he)))

def offset (ranges : List NativeRange) (base i : ℕ) : ℕ :=
  base + ((ranges.take i).map NativeRange.words).sum

theorem fillRanges_offsets (ranges : List NativeRange) (base : ℕ) (entries : List (BitVec 32))
    (bits : Bits) (i : ℕ) (h : i < ranges.length) :
    (fillRanges ranges base entries bits).offsets.getD i 0 = offset ranges base i := by
  induction ranges generalizing base entries bits i with
  | nil => exact absurd h (Nat.not_lt_zero i)
  | cons r ranges ih =>
    cases i with
    | zero => simp [fillRanges,offset]
    | succ i =>
      have hi : i < ranges.length := Nat.lt_of_succ_lt_succ h
      simpa [fillRanges,offset,Nat.add_assoc] using ih (base + r.words) _ _ i hi

theorem fillRanges_bits (ranges : List NativeRange) (base : ℕ) (entries : List (BitVec 32))
    (bits : Bits) (hr : ranges.Pairwise fun a b => a.endAddr ≤ b.start)
    (hs : entries.Pairwise (· ≤ ·)) (n : ℕ) :
    testBit (fillRanges ranges base entries bits).bits n = true ↔
      testBit bits n = true ∨
        ∃ i r, ranges[i]? = some r ∧ Sets r (offset ranges base i) entries n := by
  induction ranges generalizing base entries bits with
  | nil => simp [fillRanges]
  | cons r ranges ih =>
    rw [List.pairwise_cons] at hr
    have hrest := fillRange_rest r base entries bits hs
    -- the entries that are used up lie below every later range
    have hsets : ∀ q ∈ ranges, ∀ b, Sets q b (fillRange r base entries bits).1 n ↔
        Sets q b entries n := by
      intro q hq b
      constructor
      · rintro ⟨e,he,h⟩
        exact ⟨e,((hrest e).1 he).1,h⟩
      · rintro ⟨e,he,hc,h⟩
        exact ⟨e,(hrest e).2 ⟨he,BitVec.le_trans (hr.1 q hq) hc.1⟩,hc,h⟩
    rw [fillRanges]
    rw [ih _ _ _ hr.2 (fillRange_pairwise r base entries bits hs),fillRange_bits r base entries bits hs,
      or_assoc]
    refine or_congr_right ?_
    constructor
    · rintro (h | ⟨i,q,hq,h⟩)
      · exact ⟨0,r,rfl,by simpa [offset] using h⟩
      · refine ⟨i + 1,q,hq,?_⟩
        rw [hsets q (List.mem_of_getElem? hq)] at h
        simpa [offset,Nat.add_assoc] using h
    · rintro ⟨i,q,hq,h⟩
      cases i with
      | zero =>
        cases hq
        exact .inl (by simpa [offset] using h)
      | succ i =>
        refine .inr ⟨i,q,hq,?_⟩
        rw [hsets q (List.mem_of_getElem? hq)]
        simpa [offset,Nat.add_assoc] using h

theorem offset_succ {ranges : List NativeRange} (base : ℕ) {i : ℕ} {r : NativeRange}
    (h : ranges[i]? = some r) : offset ranges base (i + 1) = offset ranges base i + r.words := by
  obtain ⟨hlt,rfl⟩ := List.getElem?_eq_some_iff.1 h
  rw [offset,offset,List.take_succ_eq_append_getElem hlt,List.map_append,List.sum_append]
  simp [Nat.add_assoc]

theorem offset_mono (ranges : List NativeRange) (base : ℕ) {i j : ℕ} (h : i ≤ j) :
    offset ranges base i ≤ offset ranges base j := by
  induction h with
  | refl => exact Nat.le_refl _
  | @step j _ ih =>
    refine Nat.le_trans ih ?_
    rcases hj : ranges[j]? with _ | r
    · have hle := List.getElem?_eq_none_iff.1 hj
      have he : offset ranges base j = offset ranges base (j + 1) := by
        rw [offset,offset,List.take_of_length_le hle,List.take_of_length_le (Nat.le_succ_of_le hle)]
      exact Nat.le_of_eq he
    · rw [offset_succ base hj]
      exact Nat.le_add_right _ _

theorem aligned_iff (range : NativeRange) (address : BitVec 32) :
    aligned range address = true ↔ (address - range.start).toNat % 4 = 0 := by
  rw [aligned,decide_eq_true_iff,← BitVec.toNat_inj,BitVec.toNat_and]
  show _ &&& (2 ^ 2 - 1) = 0 ↔ _
  rw [Nat.and_two_pow_sub_one_eq_mod]

theorem wordIndex_lt {range : NativeRange} {address : BitVec 32} (hc : range.Contains address)
    (hp : range.start < range.endAddr ∧ (range.endAddr - range.start).toNat % 4 = 0) :
    wordIndex range address < range.words := by
  obtain ⟨h1,h2⟩ := hc
  have hlt : (address - range.start).toNat < (range.endAddr - range.start).toNat := by bv_omega
  rw [wordIndex,NativeRange.words]
  omega

theorem wordIndex_inj {range : NativeRange} {a b : BitVec 32} (ha : aligned range a = true)
    (hb : aligned range b = true) (h : wordIndex range a = wordIndex range b) : a = b := by
  rw [aligned_iff] at ha hb
  rw [wordIndex,wordIndex] at h
  have hsub : (a - range.start).toNat = (b - range.start).toNat := by omega
  have := BitVec.eq_of_toNat_eq hsub
  bv_omega

/-- The words of the ranges at or after `lo` fit in the address space. -/
theorem words_sum_le (ranges : List NativeRange) (lo : ℕ) (hlo : lo ≤ 2 ^ 32)
    (hs : ranges.Pairwise fun a b => a.endAddr ≤ b.start)
    (hp : ∀ r ∈ ranges, r.start < r.endAddr ∧ (r.endAddr - r.start).toNat % 4 = 0)
    (h : ∀ r ∈ ranges, lo ≤ r.start.toNat) :
    lo + 4*(ranges.map NativeRange.words).sum ≤ 2 ^ 32 := by
  induction ranges generalizing lo with
  | nil => simpa using hlo
  | cons r ranges ih =>
    rw [List.pairwise_cons] at hs
    obtain ⟨hlt,-⟩ := hp r (by simp)
    have hstart := h r (by simp)
    have hrest := ih r.endAddr.toNat (Nat.le_of_lt r.endAddr.isLt) hs.2
      (fun q hq => hp q (by simp [hq])) (fun q hq => hs.1 q hq)
    have hwords : 4*r.words ≤ r.endAddr.toNat - r.start.toNat := by
      rw [NativeRange.words]
      bv_omega
    have : r.start.toNat < r.endAddr.toNat := hlt
    simp only [List.map_cons,List.sum_cons]
    omega

theorem emitEntryMap_eq (entries : List (BitVec 32)) :
    emitEntryMap table.ranges entries = some (fillRanges table.ranges 0 entries fun _ => 0) := by
  have h := words_sum_le table.ranges 0 (by decide) table.sorted table.proper fun _ _ => Nat.zero_le _
  rw [emitEntryMap,if_neg]
  omega

/-- The bit that is read for an address of a range is set for it alone. -/
theorem supportsEntry_some (entries : List (BitVec 32)) (hs : entries.Pairwise (· ≤ ·))
    {index : ℕ} {range : NativeRange} (hi : table.ranges[index]? = some range)
    {address : BitVec 32} (hc : range.Contains address) :
    supportsEntry table (fillRanges table.ranges 0 entries fun _ => 0) address (some index) = true ↔
      aligned range address = true ∧ address ∈ entries := by
  obtain ⟨hlt,-⟩ := List.getElem?_eq_some_iff.1 hi
  have hp := table.proper range (List.mem_of_getElem? hi)
  simp only [supportsEntry,hi,Bool.and_eq_true,fillRanges_offsets _ _ _ _ _ hlt]
  refine and_congr_right fun ha => ?_
  rw [fillRanges_bits _ _ _ _ table.sorted hs]
  simp only [testBit_zero,Bool.false_eq_true,false_or]
  have hw := wordIndex_lt hc hp
  constructor
  · rintro ⟨j,q,hj,e,he,hqc,hqa,hn⟩
    have hqw := wordIndex_lt hqc (table.proper q (List.mem_of_getElem? hj))
    have hji : j = index := by
      rcases Nat.lt_trichotomy j index with h | h | h
      · have h1 := offset_mono table.ranges 0 h
        rw [Nat.succ_eq_add_one,offset_succ 0 hj] at h1
        omega
      · exact h
      · have h1 := offset_mono table.ranges 0 h
        rw [Nat.succ_eq_add_one,offset_succ 0 hi] at h1
        omega
    subst hji
    rw [hi,Option.some.injEq] at hj
    subst hj
    rw [wordIndex_inj ha hqa (by omega)]
    exact he
  · exact fun he => ⟨index,range,hi,address,he,hc,ha,rfl⟩

/-- Whatever lookups ran before or run meanwhile, a returned lookup has found the range
of its address, and the entry test accepts the word-aligned entries of the ranges. -/
theorem native_lookup (entries : List (BitVec 32)) (hs : entries.Pairwise (· ≤ ·))
    (c : Config Cache Find) (hrun : Run (system table) initial c) (address : BitVec 32)
    (result : Option ℕ) (hd : Find.done address result ∈ c.ops) :
    (∀ i, result = some i ↔ ∃ r, table.ranges[i]? = some r ∧ r.Contains address) ∧
    ∃ map, emitEntryMap table.ranges entries = some map ∧
      (supportsEntry table map address result = true ↔
        (∃ r ∈ table.ranges, r.Contains address ∧ (address - r.start).toNat % 4 = 0) ∧
          address ∈ entries) := by
  have hres : NativeTable.search table.ranges address = result := (sound_run table hrun).finds _ hd
  have hiff (i : ℕ) := table.search_eq_some_iff address i
  rw [hres] at hiff
  refine ⟨hiff,_,emitEntryMap_eq table entries,?_⟩
  rcases hr : result with _ | index
  · refine ⟨fun h => (nomatch h),?_⟩
    rintro ⟨⟨r,hmem,hc,-⟩,-⟩
    obtain ⟨i,hi⟩ := List.mem_iff_getElem?.1 hmem
    have := (hiff i).2 ⟨r,hi,hc⟩
    rw [hr] at this
    cases this
  · obtain ⟨range,hi,hc⟩ := (hiff index).1 hr
    rw [supportsEntry_some table entries hs hi hc,aligned_iff]
    refine and_congr_left fun _ => ⟨fun h => ⟨range,List.mem_of_getElem? hi,hc,h⟩,?_⟩
    rintro ⟨r,hmem,hrc,ha⟩
    obtain ⟨j,hj⟩ := List.mem_iff_getElem?.1 hmem
    have hji := table.contains_unique hj hi hrc hc
    subst hji
    rw [hi,Option.some.injEq] at hj
    rwa [hj]

/-- Two ranges of four words, whose words share the slots of the cache. -/
def twoRanges : NativeTable where
  ranges := [⟨0x80003100,0x80003110,0⟩,⟨0x80007100,0x80007110,0⟩]
  sorted := by simp
  proper := by decide
  short := by decide

/-- The cache behind the first lookup. -/
def firstCached : Cache := Function.update (fun _ => 0) (slotOf 0x80003104) (pack 0x80003104 0)

/-- Two lookups miss side by side, a third one hits what the first has stored, then the second
replaces it. -/
theorem twoRanges_run : ∃ cache, Run (system twoRanges) initial ⟨cache,
    [.done 0x80003104 (some 0),.done 0x80007104 (some 1),.done 0x80003104 (some 0)]⟩ := by
  have h1 : Step (system twoRanges) initial ⟨fun _ => 0,[.load 0x80003104]⟩ := .new ⟨_,rfl⟩
  have h2 : Step (system twoRanges) ⟨fun _ => 0,[.load 0x80003104]⟩
      ⟨fun _ => 0,[.load 0x80003104,.load 0x80007104]⟩ := .new ⟨_,rfl⟩
  have h3 : Step (system twoRanges) ⟨fun _ => 0,[.load 0x80003104,.load 0x80007104]⟩
      ⟨fun _ => 0,[.store 0x80003104 0,.load 0x80007104]⟩ := .act (k := 0) rfl rfl
  have h4 : Step (system twoRanges) ⟨fun _ => 0,[.store 0x80003104 0,.load 0x80007104]⟩
      ⟨fun _ => 0,[.store 0x80003104 0,.store 0x80007104 1]⟩ := .act (k := 1) rfl rfl
  have h5 : Step (system twoRanges) ⟨fun _ => 0,[.store 0x80003104 0,.store 0x80007104 1]⟩
      ⟨firstCached,[.done 0x80003104 (some 0),.store 0x80007104 1]⟩ := .act (k := 0) rfl rfl
  have h6 : Step (system twoRanges) ⟨firstCached,[.done 0x80003104 (some 0),.store 0x80007104 1]⟩
      ⟨firstCached,[.done 0x80003104 (some 0),.store 0x80007104 1,.load 0x80003104]⟩ :=
    .new ⟨_,rfl⟩
  have h7 : Step (system twoRanges)
      ⟨firstCached,[.done 0x80003104 (some 0),.store 0x80007104 1,.load 0x80003104]⟩
      ⟨firstCached,[.done 0x80003104 (some 0),.store 0x80007104 1,.done 0x80003104 (some 0)]⟩ :=
    .act (k := 2) rfl rfl
  have h8 : Step (system twoRanges)
      ⟨firstCached,[.done 0x80003104 (some 0),.store 0x80007104 1,.done 0x80003104 (some 0)]⟩
      ⟨Function.update firstCached (slotOf 0x80007104) (pack 0x80007104 1),
        [.done 0x80003104 (some 0),.done 0x80007104 (some 1),.done 0x80003104 (some 0)]⟩ :=
    .act (k := 1) rfl rfl
  have hrun := (((Relation.ReflTransGen.single h1).tail h2).tail h3).tail h4
  exact ⟨_,(((hrun.tail h5).tail h6).tail h7).tail h8⟩

theorem native_lookup_twoRanges : ∃ map,
    emitEntryMap twoRanges.ranges [0x80003104,0x80007108] = some map ∧
      supportsEntry twoRanges map 0x80003104 (some 0) = true ∧
      supportsEntry twoRanges map 0x80007104 (some 1) = false := by
  obtain ⟨cache,hrun⟩ := twoRanges_run
  have hs : [0x80003104#32,0x80007108#32].Pairwise (· ≤ ·) := by decide
  obtain ⟨-,map,hmap,hhit⟩ := native_lookup twoRanges _ hs _ hrun 0x80003104 (some 0) (by simp)
  obtain ⟨-,map',hmap',hmiss⟩ := native_lookup twoRanges _ hs _ hrun 0x80007104 (some 1) (by simp)
  rw [hmap,Option.some.injEq] at hmap'
  subst hmap'
  refine ⟨map,hmap,hhit.mpr (by decide),Bool.eq_false_of_not_eq_true fun h => ?_⟩
  exact absurd (hmiss.mp h).2 (by decide)

end NativeLookup

end DolRecomp
