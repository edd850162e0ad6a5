import DolRecomp.SortedMerge
import DolRecomp.SymbolHeader
import Mathlib.Data.List.GetD
import Mathlib.Data.List.Lex
import Mathlib.Data.List.Sort
import Mathlib.Data.Prod.Lex

/-!
# Loading a symbol map

The records of a map are sorted by address and name, and equal ones are merged in place. A size
that is not given reaches to the next symbol of the section.
-/

namespace DolRecomp

namespace Symbols

open Disc

/-- `strcmp`, of strings without their terminators. -/
def strcmp : CString → CString → ℤ
  | [], [] => 0
  | [], _ :: _ => -1
  | _ :: _, [] => 1
  | c :: s, d :: t => if c = d then strcmp s t else (c.toNat : ℤ) - d.toNat

def symbolCompare (a b : DolRecompSymbol) : ℤ :=
  if a.address < b.address then -1
  else if a.address > b.address then 1
  else strcmp a.name b.name

/-- A library function that sorts by `symbol_compare`; the order of equal records is its own. -/
structure Qsort where
  sort : List DolRecompSymbol → List DolRecompSymbol
  perm : ∀ symbols, (sort symbols).Perm symbols
  sorted : ∀ symbols, (sort symbols).Pairwise fun a b => symbolCompare a b ≤ 0

def deduplicateStep (st : List DolRecompSymbol × ℕ) (read : ℕ) : List DolRecompSymbol × ℕ :=
  let symbols := st.1
  let write := st.2
  let current := symbolAt symbols read
  let previous := symbolAt symbols (write - 1)
  if write ≠ 0 ∧ previous.address = current.address ∧ strcmp previous.name current.name = 0 then
    (if previous.size = 0 then symbols.set (write - 1) { previous with size := current.size }
      else symbols,write)
  else (if write ≠ read then symbols.set write current else symbols,write + 1)

def symbolMapDeduplicate (symbols : List DolRecompSymbol) : List DolRecompSymbol :=
  let st := (List.range symbols.length).foldl deduplicateStep (symbols,0)
  st.1.take st.2

/-- `symbol_map_load`, from the records of the lines on. -/
def symbolMapLoad (q : Qsort) (records : List DolRecompSymbol) : Option (List DolRecompSymbol) :=
  let symbols := records.filter fun r => r.address &&& 3#32 = 0
  if symbols = [] then none else some (symbolMapDeduplicate (q.sort symbols))

/-- The address and then the name, byte by byte. -/
def symbolKey (s : DolRecompSymbol) : ℕ ×ₗ List ℕ :=
  toLex (s.address.toNat,s.name.map BitVec.toNat)

theorem map_toNat_inj {s t : CString} : s.map BitVec.toNat = t.map BitVec.toNat ↔ s = t :=
  (List.map_injective_iff.mpr fun _ _ h => BitVec.eq_of_toNat_eq h).eq_iff

theorem symbolKey_inj {a b : DolRecompSymbol} :
    symbolKey a = symbolKey b ↔ a.address = b.address ∧ a.name = b.name := by
  rw [symbolKey,symbolKey,toLex_inj,Prod.mk.injEq,map_toNat_inj,BitVec.toNat_inj]

theorem strcmp_eq_zero {s t : CString} : strcmp s t = 0 ↔ s = t := by
  induction s generalizing t with
  | nil => cases t <;> simp [strcmp]
  | cons c s ih =>
    cases t with
    | nil => simp [strcmp]
    | cons d t =>
      rw [strcmp]
      by_cases h : c = d
      · simp [h,ih]
      · have hne : c.toNat ≠ d.toNat := fun he => h (BitVec.eq_of_toNat_eq he)
        rw [if_neg h]
        simp only [List.cons.injEq,h,false_and,iff_false]
        omega

theorem strcmp_neg {s t : CString} :
    strcmp s t < 0 ↔ s.map BitVec.toNat < t.map BitVec.toNat := by
  induction s generalizing t with
  | nil => cases t <;> simp [strcmp]
  | cons c s ih =>
    cases t with
    | nil => simp [strcmp]
    | cons d t =>
      rw [strcmp,List.map_cons,List.map_cons,List.cons_lt_cons_iff]
      by_cases h : c = d
      · simp [h,ih]
      · have hne : c.toNat ≠ d.toNat := fun he => h (BitVec.eq_of_toNat_eq he)
        simp only [if_neg h,hne,false_and,or_false]
        omega

theorem symbolCompare_neg {a b : DolRecompSymbol} :
    symbolCompare a b < 0 ↔ symbolKey a < symbolKey b := by
  rw [symbolCompare,symbolKey,symbolKey,Prod.Lex.toLex_lt_toLex]
  simp only [gt_iff_lt,BitVec.lt_def]
  by_cases hlt : a.address.toNat < b.address.toNat
  · simp [hlt]
  · by_cases hgt : b.address.toNat < a.address.toNat
    · have hne : a.address.toNat ≠ b.address.toNat := by omega
      simp [hlt,hgt,hne]
    · have heq : a.address.toNat = b.address.toNat := by omega
      simp [heq,strcmp_neg]

theorem symbolCompare_le {a b : DolRecompSymbol} :
    symbolCompare a b ≤ 0 ↔ symbolKey a ≤ symbolKey b := by
  have hzero : symbolCompare a b = 0 ↔ symbolKey a = symbolKey b := by
    rw [symbolKey_inj,symbolCompare]
    simp only [gt_iff_lt,BitVec.lt_def,← BitVec.toNat_inj (x := a.address)]
    by_cases hlt : a.address.toNat < b.address.toNat
    · simp [hlt,hlt.ne]
    · by_cases hgt : b.address.toNat < a.address.toNat
      · simp [hlt,hgt,hgt.ne']
      · have heq : a.address.toNat = b.address.toNat := by omega
        simp [heq,strcmp_eq_zero]
  rw [le_iff_lt_or_eq,le_iff_lt_or_eq,symbolCompare_neg,hzero]

/-- A sort by insertion. -/
def insertionQsort : Qsort where
  sort symbols := symbols.insertionSort fun a b => symbolCompare a b ≤ 0
  perm symbols := List.perm_insertionSort _ symbols
  sorted symbols := by
    have htotal : Std.Total fun a b => symbolCompare a b ≤ 0 := ⟨fun a b => by
      simp only [symbolCompare_le]
      exact le_total _ _⟩
    have htrans : IsTrans DolRecompSymbol fun a b => symbolCompare a b ≤ 0 := ⟨fun a b c => by
      simp only [symbolCompare_le]
      exact le_trans⟩
    exact List.pairwise_insertionSort _ symbols

/-- What a duplicate leaves of the two: the first size that is not zero. -/
def mergeSize (p c : DolRecompSymbol) : DolRecompSymbol :=
  if p.size = 0 then { p with size := c.size } else p

theorem symbolKey_mergeSize (p c : DolRecompSymbol) : symbolKey (mergeSize p c) = symbolKey p := by
  rw [mergeSize]
  split <;> rfl

/-- Before the round `read`: the entries below `write` are those of the pass over what has been
read, and what has not been read is untouched. -/
structure InPlace (symbols : List DolRecompSymbol) (read : ℕ) (st : List DolRecompSymbol × ℕ) :
    Prop where
  length : st.1.length = symbols.length
  write_le : st.2 ≤ read
  written : st.1.take st.2 = (symbols.take read).foldl (SortedMerge.step symbolKey mergeSize) []
  unread : st.1.drop read = symbols.drop read

section
variable {symbols : List DolRecompSymbol} {read : ℕ} {st : List DolRecompSymbol × ℕ}

theorem symbolAt_eq {i : ℕ} (h : i < symbols.length) : symbolAt symbols i = symbols[i] :=
  List.getD_eq_getElem _ _ h

theorem InPlace.current (h : InPlace symbols read st) :
    symbolAt st.1 read = symbolAt symbols read := by
  have hget := congrArg (fun l => l[0]?) h.unread
  simp only [List.getElem?_drop,Nat.add_zero] at hget
  rw [symbolAt,symbolAt,List.getD_eq_getElem?_getD,List.getD_eq_getElem?_getD,hget]

theorem InPlace.last (h : InPlace symbols read st) (hread : read < symbols.length)
    (hw : st.2 ≠ 0) : (st.1.take st.2).getLast? = some (symbolAt st.1 (st.2 - 1)) := by
  have hle := h.write_le
  have hlen := h.length
  rw [symbolAt_eq (by omega),List.getLast?_take,if_neg hw]
  simp [List.getElem?_eq_getElem (show st.2 - 1 < st.1.length by omega)]

theorem take_set_last {l : List DolRecompSymbol} {n : ℕ} (h : n < l.length) (x : DolRecompSymbol) :
    (l.set n x).take (n + 1) = l.take n ++ [x] := by
  rw [← List.take_append_getElem (by rwa [List.length_set]),List.getElem_set_self,
    List.take_set_of_le le_rfl]

theorem set_symbolAt {l : List DolRecompSymbol} {n : ℕ} (h : n < l.length) :
    l.set n (symbolAt l n) = l := by
  rw [symbolAt_eq h,List.set_getElem_self]

/-- What a round writes, whether it merges or keeps. -/
theorem InPlace.set {n : ℕ} (h : InPlace symbols read st) (hn : n ≤ read)
    (hread : read < symbols.length) {x : DolRecompSymbol}
    (hx : st.1.take n ++ [x] = (symbols.take (read + 1)).foldl
      (SortedMerge.step symbolKey mergeSize) []) :
    InPlace symbols (read + 1) (st.1.set n x,n + 1) := by
  have hlen := h.length
  refine ⟨by rw [List.length_set,h.length],by omega,?_,?_⟩
  · rw [take_set_last (by omega),hx]
  · rw [List.drop_set_of_lt (by omega),← List.drop_drop,h.unread,List.drop_drop]

theorem inPlace_step (h : InPlace symbols read st) (hread : read < symbols.length) :
    InPlace symbols (read + 1) (deduplicateStep st read) := by
  have hle := h.write_le
  have hlen := h.length
  have hcurrent := h.current
  have hfold : (symbols.take (read + 1)).foldl (SortedMerge.step symbolKey mergeSize) [] =
      SortedMerge.step symbolKey mergeSize (st.1.take st.2) (symbolAt symbols read) := by
    rw [symbolAt_eq hread,← List.take_append_getElem hread,List.foldl_append,h.written]
    rfl
  have hcond : (st.2 ≠ 0 ∧ (symbolAt st.1 (st.2 - 1)).address = (symbolAt st.1 read).address ∧
      strcmp (symbolAt st.1 (st.2 - 1)).name (symbolAt st.1 read).name = 0) ↔
      st.2 ≠ 0 ∧ symbolKey (symbolAt st.1 (st.2 - 1)) = symbolKey (symbolAt symbols read) := by
    rw [strcmp_eq_zero,symbolKey_inj,hcurrent]
  rw [deduplicateStep]
  by_cases hdup : st.2 ≠ 0 ∧
      symbolKey (symbolAt st.1 (st.2 - 1)) = symbolKey (symbolAt symbols read)
  · simp only [if_pos (hcond.mpr hdup)]
    have hset : (if (symbolAt st.1 (st.2 - 1)).size = 0 then st.1.set (st.2 - 1)
        { symbolAt st.1 (st.2 - 1) with size := (symbolAt st.1 read).size } else st.1) =
        st.1.set (st.2 - 1) (mergeSize (symbolAt st.1 (st.2 - 1)) (symbolAt symbols read)) := by
      rw [mergeSize,hcurrent]
      split
      · rfl
      · exact (set_symbolAt (by omega)).symm
    have hfront : (st.1.take st.2).dropLast = st.1.take (st.2 - 1) := by
      rw [List.dropLast_take]
      omega
    have hwrite : st.2 = st.2 - 1 + 1 := by omega
    rw [hset,hwrite,Nat.add_sub_cancel]
    refine h.set (by omega) hread ?_
    rw [hfold,SortedMerge.step,h.last hread hdup.1]
    simp only [if_pos hdup.2,hfront]
  · simp only [if_neg (mt hcond.mp hdup)]
    have hset : (if st.2 ≠ read then st.1.set st.2 (symbolAt st.1 read) else st.1) =
        st.1.set st.2 (symbolAt symbols read) := by
      rw [← hcurrent]
      split
      · rfl
      · next heq =>
        rw [not_not.mp heq]
        exact (set_symbolAt (by omega)).symm
    rw [hset]
    refine h.set hle hread ?_
    rw [hfold,SortedMerge.step]
    by_cases hw : st.2 = 0
    · simp [hw]
    · rw [h.last hread hw]
      simp only [if_neg fun heq => hdup ⟨hw,heq⟩]

theorem inPlace_run (n : ℕ) (hn : n ≤ symbols.length) :
    InPlace symbols n ((List.range n).foldl deduplicateStep (symbols,0)) := by
  induction n with
  | zero => exact ⟨rfl,le_rfl,rfl,rfl⟩
  | succ n ih =>
    rw [List.range_succ,List.foldl_append]
    exact inPlace_step (ih (by omega)) hn

/-- The loop in place is the pass that merges equal keys. -/
theorem symbolMapDeduplicate_eq (symbols : List DolRecompSymbol) : symbolMapDeduplicate symbols =
    symbols.foldl (SortedMerge.step symbolKey mergeSize) [] := by
  have h := (@inPlace_run symbols symbols.length le_rfl).written
  rw [List.take_length] at h
  exact h

end

/-- A map for the records: in strict order, with every address and name once, and a size for each
that some record gives one. -/
structure LoadedMap (records symbols : List DolRecompSymbol) : Prop where
  increasing : symbols.Pairwise fun a b => symbolCompare a b < 0
  complete : ∀ r ∈ records, ∃! s, s ∈ symbols ∧ s.address = r.address ∧ s.name = r.name
  sound : ∀ s ∈ symbols, ∃ r ∈ records,
    r.address = s.address ∧ r.name = s.name ∧ r.size = s.size
  sized : ∀ r ∈ records, r.size ≠ 0 → ∀ s ∈ symbols, s.address = r.address → s.name = r.name →
    s.size ≠ 0

theorem foldl_mergeSize_size (b : DolRecompSymbol) (bs : List DolRecompSymbol) :
    (∃ c ∈ b :: bs, (bs.foldl mergeSize b).size = c.size) ∧
      ((∃ c ∈ b :: bs, c.size ≠ 0) → (bs.foldl mergeSize b).size ≠ 0) := by
  induction bs generalizing b with
  | nil => simp
  | cons c bs ih =>
    obtain ⟨⟨d,hd,hsize⟩,hsome⟩ := ih (mergeSize b c)
    have hmerged : (mergeSize b c).size = b.size ∨ (mergeSize b c).size = c.size := by
      rw [mergeSize]
      split
      · exact Or.inr rfl
      · exact Or.inl rfl
    have hkept : b.size ≠ 0 ∨ c.size ≠ 0 → (mergeSize b c).size ≠ 0 := by
      rw [mergeSize]
      split
      · next h => exact fun hbc => hbc.resolve_left (not_not.mpr h)
      · next h => exact fun _ => h
    refine ⟨?_,?_⟩
    · rcases List.mem_cons.mp hd with hd | hd
      · rw [hd] at hsize
        rcases hmerged with hb | hc
        · exact ⟨b,List.mem_cons_self,hsize.trans hb⟩
        · exact ⟨c,List.mem_cons_of_mem _ List.mem_cons_self,hsize.trans hc⟩
      · exact ⟨d,List.mem_cons_of_mem _ (List.mem_cons_of_mem _ hd),hsize⟩
    · rintro ⟨e,he,hne⟩
      refine hsome ?_
      rcases List.mem_cons.mp he with he | he
      · exact ⟨_,List.mem_cons_self,hkept (Or.inl (he ▸ hne))⟩
      rcases List.mem_cons.mp he with he | he
      · exact ⟨_,List.mem_cons_self,hkept (Or.inr (he ▸ hne))⟩
      · exact ⟨e,List.mem_cons_of_mem _ he,hne⟩

theorem loadedMap_of_merged {records sorted symbols : List DolRecompSymbol}
    (hperm : sorted.Perm records) (h : SortedMerge.Merged symbolKey mergeSize sorted symbols) :
    LoadedMap records symbols := by
  have hunique : ∀ s ∈ symbols, ∀ t ∈ symbols, symbolKey s = symbolKey t → s = t := by
    intro s hs t ht hkey
    by_contra hne
    have hsym : symbols.Pairwise fun a b => symbolKey a ≠ symbolKey b :=
      h.increasing.imp fun hlt => hlt.ne
    have : Std.Symm fun a b : DolRecompSymbol => symbolKey a ≠ symbolKey b :=
      ⟨fun _ _ hab => hab.symm⟩
    exact hsym.forall hs ht hne hkey
  refine ⟨h.increasing.imp fun hlt => symbolCompare_neg.mpr hlt,fun r hr => ?_,fun s hs => ?_,
    fun r hr hsize s hs haddress hname => ?_⟩
  · obtain ⟨s,hs,hkey⟩ := h.complete r (hperm.mem_iff.mpr hr)
    refine ⟨s,⟨hs,symbolKey_inj.mp hkey⟩,fun t ht => ?_⟩
    exact hunique t ht.1 s hs ((symbolKey_inj.mpr ht.2).trans hkey.symm)
  · obtain ⟨b,bs,hfilter,heq⟩ := h.gathers s hs
    obtain ⟨⟨c,hc,hsize⟩,-⟩ := foldl_mergeSize_size b bs
    rw [← hfilter] at hc
    obtain ⟨hmem,hkey⟩ := List.mem_filter.mp hc
    obtain ⟨haddress,hname⟩ := symbolKey_inj.mp (by simpa using hkey)
    refine ⟨c,hperm.mem_iff.mp hmem,haddress,hname,?_⟩
    rw [heq]
    exact hsize.symm
  · obtain ⟨b,bs,hfilter,heq⟩ := h.gathers s hs
    rw [heq]
    refine (foldl_mergeSize_size b bs).2 ⟨r,?_,hsize⟩
    rw [← hfilter]
    have hkey := symbolKey_inj.mpr ⟨haddress.symm,hname.symm⟩
    exact List.mem_filter.mpr ⟨hperm.mem_iff.mpr hr,by simpa using hkey⟩

theorem loadedMap_symbolMapLoad {q : Qsort} {records symbols : List DolRecompSymbol}
    (haligned : ∀ r ∈ records, r.address &&& 3#32 = 0)
    (h : symbolMapLoad q records = some symbols) : LoadedMap records symbols := by
  have hfilter : records.filter (fun r => r.address &&& 3#32 = 0) = records :=
    List.filter_eq_self.mpr fun r hr => decide_eq_true (haligned r hr)
  rw [symbolMapLoad,hfilter] at h
  split at h
  · exact absurd h (by simp)
  · rw [← Option.some.inj h,symbolMapDeduplicate_eq]
    refine loadedMap_of_merged (q.perm records) (SortedMerge.merged_foldl symbolKey_mergeSize ?_)
    exact (q.sorted records).imp fun hle => symbolCompare_le.mp hle

/-- The size of a symbol that has none: to the next symbol of the section, or to its end. -/
structure ReachesNext (symbols : List DolRecompSymbol) (address sectionEnd reached : ℕ) : Prop where
  ends : (∃ s ∈ symbols, s.address.toNat = reached ∧ address < reached ∧ reached < sectionEnd) ∨
    reached = sectionEnd
  next : ∀ s ∈ symbols, address < s.address.toNat → s.address.toNat < sectionEnd →
    reached ≤ s.address.toNat

/-- Symbols outside the rest of the section do not count. -/
theorem ReachesNext.of_rest {rest symbols : List DolRecompSymbol} {address sectionEnd reached : ℕ}
    (h : ReachesNext rest address sectionEnd reached) (hsub : ∀ t ∈ rest, t ∈ symbols)
    (hrest : ∀ t ∈ symbols, address < t.address.toNat → t.address.toNat < sectionEnd → t ∈ rest) :
    ReachesNext symbols address sectionEnd reached := by
  refine ⟨?_,fun t ht hgt hlow => h.next t (hrest t ht hgt hlow) hgt hlow⟩
  rcases h.ends with ⟨t,ht,hx⟩ | hx
  · exact Or.inl ⟨t,hsub t ht,hx⟩
  · exact Or.inr hx

theorem reachesNext_sizeToNext {rest : List DolRecompSymbol} {address sectionEnd : BitVec 32}
    (hsorted : rest.Pairwise fun a b => a.address ≤ b.address) (hin : address < sectionEnd) :
    address.toNat + (sizeToNext address sectionEnd rest).toNat ≤ sectionEnd.toNat ∧
      ReachesNext rest address.toNat sectionEnd.toNat
        (address.toNat + (sizeToNext address sectionEnd rest).toNat) := by
  have hlt := BitVec.lt_def.mp hin
  have hwhole : address.toNat + (sectionEnd - address).toNat = sectionEnd.toNat := by
    rw [BitVec.toNat_sub_of_le (BitVec.le_of_lt hin)]
    omega
  induction rest with
  | nil =>
    rw [sizeToNext,hwhole]
    exact ⟨le_rfl,Or.inr rfl,fun s hs => absurd hs List.not_mem_nil⟩
  | cons s rest ih =>
    obtain ⟨hfirst,hrest⟩ := List.pairwise_cons.mp hsorted
    rw [sizeToNext]
    split
    · next h =>
      have hgt := BitVec.lt_def.mp h.1
      have hend := BitVec.lt_def.mp h.2
      rw [BitVec.toNat_sub_of_le (BitVec.le_of_lt h.1)]
      have hsum : address.toNat + (s.address.toNat - address.toNat) = s.address.toNat := by omega
      rw [hsum]
      refine ⟨hend.le,Or.inl ⟨s,List.mem_cons_self,rfl,hgt,hend⟩,fun t ht _ _ => ?_⟩
      rcases List.mem_cons.mp ht with ht | ht
      · rw [ht]
      · exact BitVec.le_def.mp (hfirst t ht)
    · next hnot =>
      have hskip : address.toNat < s.address.toNat → ¬ s.address.toNat < sectionEnd.toNat :=
        fun hgt hend => hnot ⟨BitVec.lt_def.mpr hgt,BitVec.lt_def.mpr hend⟩
      split
      · next hend =>
        rw [hwhole]
        refine ⟨le_rfl,Or.inr rfl,fun t ht hgt hlow => ?_⟩
        have hle := BitVec.le_def.mp hend
        rcases List.mem_cons.mp ht with ht | ht
        · exact absurd (ht ▸ hlow) (by omega)
        · have := BitVec.le_def.mp (hfirst t ht)
          omega
      · obtain ⟨hle,hreached⟩ := ih hrest
        refine ⟨hle,hreached.of_rest (fun t => List.mem_cons_of_mem s) fun t ht hgt hlow => ?_⟩
        rcases List.mem_cons.mp ht with ht | ht
        · exact absurd (ht ▸ hlow) (hskip (ht ▸ hgt))
        · exact ht

/-- What a section makes of the size of a symbol in it. -/
structure Resolved (symbols : List DolRecompSymbol) (index : ℕ) (s : LoadedCodeSection) : Prop where
  inside : (symbolAt symbols index).address.toNat + (resolvedSize symbols index s).toNat ≤
    s.address.toNat + s.size.toNat
  given : (symbolAt symbols index).size ≠ 0 →
    (symbolAt symbols index).address.toNat + (symbolAt symbols index).size.toNat ≤
      s.address.toNat + s.size.toNat →
    resolvedSize symbols index s = (symbolAt symbols index).size
  inferred : (symbolAt symbols index).size = 0 →
    ReachesNext symbols (symbolAt symbols index).address.toNat (s.address.toNat + s.size.toNat)
      ((symbolAt symbols index).address.toNat + (resolvedSize symbols index s).toNat)

section
variable {symbols : List DolRecompSymbol} {index : ℕ} {s : LoadedCodeSection}

theorem toNat_sectionEnd (hend : s.address.toNat + s.size.toNat < 2^32) :
    (s.address + s.size).toNat = s.address.toNat + s.size.toNat := by
  rw [BitVec.toNat_add]
  exact Nat.mod_eq_of_lt hend

/-- Without a size of its own a symbol reaches as far as those behind it in the list let it. -/
theorem inferred_of_sorted (hsorted : symbols.Pairwise fun a b => a.address ≤ b.address)
    (hindex : index < symbols.length) (hsize : (symbolAt symbols index).size = 0)
    (hend : s.address.toNat + s.size.toNat < 2^32)
    (hlt : (symbolAt symbols index).address < s.address + s.size) :
    (symbolAt symbols index).address.toNat + (resolvedSize symbols index s).toNat ≤
        s.address.toNat + s.size.toNat ∧
      ReachesNext symbols (symbolAt symbols index).address.toNat (s.address.toNat + s.size.toNat)
        ((symbolAt symbols index).address.toNat + (resolvedSize symbols index s).toNat) := by
  have hdef : resolvedSize symbols index s = sizeToNext (symbolAt symbols index).address
      (s.address + s.size) (symbols.drop (index + 1)) := if_neg (not_not.mpr hsize)
  have hsplit : symbols = symbols.take index ++ symbolAt symbols index ::
      symbols.drop (index + 1) := by
    rw [symbolAt_eq hindex,List.getElem_cons_drop,List.take_append_drop]
  obtain ⟨-,htail,hfront⟩ := List.pairwise_append.mp (hsplit ▸ hsorted)
  obtain ⟨hle,hreached⟩ := reachesNext_sizeToNext (List.pairwise_cons.mp htail).2 hlt
  rw [← hdef,toNat_sectionEnd hend] at hle hreached
  refine ⟨hle,hreached.of_rest (fun t => List.mem_of_mem_drop) fun t ht hgt hlow => ?_⟩
  rw [hsplit] at ht
  rcases List.mem_append.mp ht with ht | ht
  · have := BitVec.le_def.mp (hfront t ht _ List.mem_cons_self)
    omega
  rcases List.mem_cons.mp ht with ht | ht
  · rw [ht] at hgt
    omega
  · exact ht

theorem resolved_of_sorted (hsorted : symbols.Pairwise fun a b => a.address ≤ b.address)
    (hindex : index < symbols.length) (hend : s.address.toNat + s.size.toNat < 2^32)
    (hin : (symbolAt symbols index).address.toNat < s.address.toNat + s.size.toNat) :
    Resolved symbols index s := by
  have hsum := toNat_sectionEnd hend
  have hlt : (symbolAt symbols index).address < s.address + s.size := by
    rw [BitVec.lt_def,hsum]
    exact hin
  by_cases hsize : (symbolAt symbols index).size = 0
  · obtain ⟨hle,hreached⟩ := inferred_of_sorted hsorted hindex hsize hend hlt
    exact ⟨hle,fun h => absurd hsize h,fun _ => hreached⟩
  · have hroom : (s.address + s.size - (symbolAt symbols index).address).toNat =
        s.address.toNat + s.size.toNat - (symbolAt symbols index).address.toNat := by
      rw [BitVec.toNat_sub_of_le (BitVec.le_of_lt hlt),hsum]
    have hdef : resolvedSize symbols index s =
        if (symbolAt symbols index).size > s.address + s.size - (symbolAt symbols index).address
        then 0 else (symbolAt symbols index).size := if_pos hsize
    refine ⟨?_,fun _ hfits => ?_,fun h => absurd h hsize⟩
    · have hzero : (0 : BitVec 32).toNat = 0 := rfl
      rw [hdef]
      split
      · omega
      · next hnot =>
        rw [gt_iff_lt,BitVec.lt_def,hroom] at hnot
        omega
    · rw [hdef,if_neg]
      rw [gt_iff_lt,BitVec.lt_def,hroom]
      omega

end

/-- The map that is loaded from records, whatever the sort does with equal ones, and the sizes of
its symbols in a section that ends below `2^32`. -/
theorem symbol_map_correct (q : Qsort) (records symbols : List DolRecompSymbol)
    (haligned : ∀ r ∈ records, r.address &&& 3#32 = 0)
    (hload : symbolMapLoad q records = some symbols) :
    LoadedMap records symbols ∧
      ∀ (s : LoadedCodeSection) (index : ℕ), s.address.toNat + s.size.toNat < 2^32 →
        index < symbols.length → s.address ≤ (symbolAt symbols index).address →
        (symbolAt symbols index).address.toNat < s.address.toNat + s.size.toNat →
        Resolved symbols index s := by
  have hmap := loadedMap_symbolMapLoad haligned hload
  refine ⟨hmap,fun s index hend hindex _ hin => resolved_of_sorted ?_ hindex hend hin⟩
  refine hmap.increasing.imp fun {a b} hlt => ?_
  by_contra hle
  have hgt : b.address < a.address := BitVec.not_le.mp hle
  rw [symbolCompare,if_neg fun h => absurd (BitVec.lt_trans h hgt) (BitVec.lt_irrefl _),
    if_pos hgt] at hlt
  exact absurd hlt (by decide)

/-- A name twice, the size with the second, and a name before it. -/
def sampleRecords : List DolRecompSymbol :=
  [⟨0x80003200,0,[0x62]⟩,⟨0x80003200,0x40,[0x62]⟩,⟨0x80003100,0,[0x61]⟩]

theorem symbol_map_sample : LoadedMap sampleRecords
    [⟨0x80003100,0,[0x61]⟩,⟨0x80003200,0x40,[0x62]⟩] :=
  (symbol_map_correct insertionQsort sampleRecords _ (by simp [sampleRecords]) rfl).1

end Symbols

end DolRecomp
