import DolRecomp.LinearProbing
import DolRecomp.SymbolHeader
import Mathlib.Data.List.Nodup
import Mathlib.Data.List.Perm.Subperm
import Mathlib.Data.Nat.Digits.Lemmas

/-!
# Clashes between the macros of the symbols

The identifiers are pairwise distinct: each symbol has the first of its names that no symbol before
it has. The macros of a symbol that is named COUNT, or SIZE and then as another one, still clash.
-/

namespace DolRecomp

namespace Symbols

open Disc LinearProbing

/-- The names of a symbol in the order in which they are tried. -/
def candidate (base : CString) (address : BitVec 32) : ℕ → CString
  | 0 => base
  | n + 1 => suffixed base address (BitVec.ofNat 32 n)

/-- The first name that is not taken. -/
def nameFor (taken : List CString) (base : CString) (address : BitVec 32) : CString :=
  candidate base address
    (((List.range (taken.length + 1)).find? fun n => candidate base address n ∉ taken).getD 0)

def givenNames (l : List (CString × BitVec 32)) : List CString :=
  l.foldl (fun taken s => taken ++ [nameFor taken s.1 s.2]) []

theorem digits_decimal {n : ℕ} (hn : n ≠ 0) :
    (decimal n).map (fun c => c.toNat - 0x30) = (Nat.digits 10 n).reverse := by
  rw [decimal,if_neg hn,List.map_map]
  refine (List.map_congr_left fun d hd => ?_).trans (List.map_id _)
  have hlt := Nat.digits_lt_base (by decide) (List.mem_reverse.mp hd)
  show (BitVec.ofNat 8 (0x30 + d)).toNat - 0x30 = d
  rw [BitVec.toNat_ofNat]
  omega

theorem decimal_injective {n m : ℕ} (hn : n ≠ 0) (hm : m ≠ 0) (h : decimal n = decimal m) :
    n = m := by
  have hdigits := congrArg (List.map fun c : BitVec 8 => c.toNat - 0x30) h
  rw [digits_decimal hn,digits_decimal hm] at hdigits
  exact Nat.digits_inj_iff.mp (List.reverse_injective hdigits)

theorem length_decimal {n : ℕ} (hn : n ≠ 0) (hlt : n < 2^32) : (decimal n).length ≤ 10 := by
  rw [← List.length_map (fun c : BitVec 8 => c.toNat - 0x30),digits_decimal hn,List.length_reverse]
  exact (Nat.digits_length_le_iff (by decide) n).mpr (by omega)

theorem length_hex8 (v : BitVec 32) : (hex8 v).length = 8 := by
  rw [hex8,List.length_map,List.length_range]

section

variable (base : CString) (address : BitVec 32)

theorem candidate_one : candidate base address 1 = base ++ underscore :: hex8 address := rfl

theorem candidate_succ {n : ℕ} (hn : n ≠ 0) (hlt : n < 2^32) : candidate base address (n + 1) =
    base ++ underscore :: (hex8 address ++ underscore :: decimal n) := by
  have htoNat : (BitVec.ofNat 32 n).toNat = n := by
    rw [BitVec.toNat_ofNat,Nat.mod_eq_of_lt hlt]
  have hne : BitVec.ofNat 32 n ≠ 0 := fun h => hn (by
    rw [← htoNat,h]
    rfl)
  rw [candidate,suffixed,if_neg hne,htoNat]

theorem length_candidate {n : ℕ} (hlt : n ≤ 2^32) :
    (candidate base address n).length ≤ base.length + 20 := by
  have hhex := length_hex8 address
  match n with
  | 0 => exact Nat.le_add_right _ _
  | 1 =>
    rw [candidate_one,List.length_append,List.length_cons]
    omega
  | n + 2 =>
    have hdec := length_decimal (n := n + 1) (by omega) (by omega)
    rw [candidate_succ base address (by omega) (by omega),List.length_append,List.length_cons,
      List.length_append,List.length_cons]
    omega

/-- Names that are tried one after the other are distinct. -/
theorem candidate_injective {n m : ℕ} (hn : n ≤ 2^32) (hm : m ≤ 2^32)
    (h : candidate base address n = candidate base address m) : n = m := by
  have hlen := congrArg List.length h
  have hhex := length_hex8 address
  have hone : (candidate base address 1).length = base.length + 9 := by
    rw [candidate_one,List.length_append,List.length_cons,hhex]
  have htwo : ∀ k, k + 2 ≤ 2^32 →
      (candidate base address (k + 2)).length = base.length + 10 + (decimal (k + 1)).length := by
    intro k hk
    rw [candidate_succ base address (by omega) (by omega),List.length_append,List.length_cons,
      List.length_append,List.length_cons,hhex]
    omega
  have hzero : (candidate base address 0).length = base.length := rfl
  match n, m with
  | 0, 0 => rfl
  | 0, 1 => omega
  | 1, 0 => omega
  | 1, 1 => rfl
  | 0, m + 2 =>
    have := htwo m hm
    omega
  | 1, m + 2 =>
    have := htwo m hm
    omega
  | n + 2, 0 =>
    have := htwo n hn
    omega
  | n + 2, 1 =>
    have := htwo n hn
    omega
  | n + 2, m + 2 =>
    rw [candidate_succ base address (by omega) (by omega),
      candidate_succ base address (by omega) (by omega)] at h
    have htail := (List.cons.inj (List.append_cancel_left h)).2
    have hdec := (List.cons.inj (List.append_cancel_left htail)).2
    have := decimal_injective (by omega) (by omega) hdec
    omega

/-- One of the names is free, and the first one is given. -/
theorem nameFor_spec (taken : List CString) (hlen : taken.length < 2^32) :
    ∃ n ≤ taken.length, nameFor taken base address = candidate base address n ∧
      candidate base address n ∉ taken ∧ ∀ m < n, candidate base address m ∈ taken := by
  have hex : ∃ n < taken.length + 1, candidate base address n ∉ taken := by
    by_contra hno
    have hall : ∀ n < taken.length + 1, candidate base address n ∈ taken := fun n hn =>
      by_contra fun hmem => hno ⟨n,hn,hmem⟩
    have hnodup : ((List.range (taken.length + 1)).map (candidate base address)).Nodup := by
      refine List.Nodup.map_on (fun n hn m hm h => ?_) List.nodup_range
      rw [List.mem_range] at hn hm
      exact candidate_injective base address (by omega) (by omega) h
    have hle := (hnodup.subperm fun c hc => by
      obtain ⟨n,hn,rfl⟩ := List.mem_map.mp hc
      exact hall n (List.mem_range.mp hn)).length_le
    rw [List.length_map,List.length_range] at hle
    omega
  classical
  obtain ⟨hlt,hfree⟩ := Nat.find_spec hex
  have hmin : ∀ m < Nat.find hex, candidate base address m ∈ taken := fun m hm =>
    by_contra fun hmem => Nat.find_min hex hm ⟨by omega,hmem⟩
  refine ⟨Nat.find hex,by omega,?_,hfree,hmin⟩
  have hfind : ((List.range (taken.length + 1)).find? fun n => candidate base address n ∉ taken) =
      some (Nat.find hex) := by
    rw [List.find?_range_eq_some]
    exact ⟨decide_eq_true hfree,List.mem_range.mpr hlt,fun m hm => by simpa using hmin m hm⟩
  rw [nameFor,hfind]
  rfl

end

theorem length_identifierLoop {outputSize : ℕ} (name : CString) {output : CString}
    (previous : Bool) (h : output.length < outputSize) :
    (identifierLoop outputSize name output previous).length < outputSize := by
  induction name generalizing output previous with
  | nil => exact h
  | cons ch name ih =>
    rw [identifierLoop]
    generalize (if (isAlnum ch || ch == underscore) = true then ch else underscore) = emitted
    dsimp only
    split
    next => exact h
    next hlead =>
      have hlen : (if output = [] ∧ isDigit emitted = true then output ++ [underscore]
          else output).length < outputSize := by
        split
        next hpre =>
          have := not_le.mp fun hno => hlead ⟨hpre,hno⟩
          rw [List.length_append]
          exact this
        next => exact h
      generalize (if output = [] ∧ isDigit emitted = true then output ++ [underscore]
        else output) = grown at hlen ⊢
      split
      next => exact ih _ hlen
      next =>
        split
        next => exact hlen
        next hroom =>
          refine ih _ ?_
          rw [List.length_append]
          exact not_le.mp hroom

theorem length_dropUnderscores (output : CString) :
    (dropUnderscores output).length ≤ output.length := by
  induction output with
  | nil => exact le_rfl
  | cons c output ih =>
    cases output with
    | nil => exact le_rfl
    | cons d output =>
      rw [dropUnderscores]
      split
      next => exact ih.trans (Nat.le_succ _)
      next => exact le_rfl

theorem length_base {name base : CString}
    (h : symbolNameToIdentifier name baseSize = some base) : base.length < baseSize := by
  unfold symbolNameToIdentifier at h
  rw [if_neg (by decide)] at h
  dsimp only at h
  split at h
  next => cases h
  next =>
    cases h
    rw [List.length_reverse]
    refine (length_dropUnderscores _).trans_lt ?_
    rw [List.length_reverse]
    exact length_identifierLoop name false (by decide)

/-- The identifier that a slot stands for. -/
def keyAt (emitted : List EmittedSymbol) (v : ℕ) : Option CString :=
  if v = 0 then none else some (emitted.getD (v - 1) default).identifier

def hashOf (identifier : CString) : ℕ := (identifierHash identifier).toNat

def Emission.slots (x : Emission) (pos : ℕ) : Option CString := keyAt x.emitted (x.set.slots pos)

def Emission.names (x : Emission) : List CString := x.emitted.map EmittedSymbol.identifier

/-- The set holds the identifiers that were emitted. -/
structure Emission.Tabled (x : Emission) : Prop where
  power : ∃ k, x.set.capacity = 2^k
  bounded : ∀ pos, x.set.slots pos ≤ x.emitted.length
  holds : Holds x.set.capacity hashOf x.slots x.names

section

variable {x : Emission} (h : x.Tabled)

include h

theorem and_capacity (n : ℕ) : n &&& (x.set.capacity - 1) = n % x.set.capacity := by
  obtain ⟨k,hk⟩ := h.power
  rw [hk,Nat.and_two_pow_sub_one_eq_mod]

theorem containsLoop_eq (identifier : CString) (fuel slot : ℕ) :
    containsLoop x.set x.emitted identifier fuel slot =
      search x.set.capacity x.slots identifier fuel slot := by
  induction fuel generalizing slot with
  | zero => rfl
  | succ fuel ih =>
    rw [containsLoop,search,Emission.slots,keyAt]
    by_cases hs : x.set.slots slot = 0
    · rw [if_pos hs,if_neg (not_not.mpr hs)]
    · rw [if_neg hs,if_pos hs,ih,and_capacity h]

theorem insertLoop_eq (fuel slot : ℕ) :
    insertLoop x.set fuel slot = freeSlot x.set.capacity x.slots fuel slot := by
  induction fuel generalizing slot with
  | zero => rfl
  | succ fuel ih =>
    rw [insertLoop,freeSlot,Emission.slots,keyAt]
    by_cases hs : x.set.slots slot = 0
    · rw [if_pos hs,if_neg (not_not.mpr hs)]
      rfl
    · rw [if_neg hs,if_pos hs,ih,and_capacity h]
      rfl

variable (hroom : x.emitted.length < x.set.capacity)

include hroom

theorem contains_eq (identifier : CString) :
    identifierSetContains x.set x.emitted identifier = some (decide (identifier ∈ x.names)) := by
  rw [identifierSetContains,containsLoop_eq h,IdentifierSet.start,and_capacity h]
  refine (h.holds.search_eq (by rwa [Emission.names,List.length_map]) identifier).trans ?_
  exact congrArg some (decide_eq_decide.mpr Iff.rfl)

theorem add_tabled (item : EmittedSymbol) : ∃ set, x.add item = some ⟨x.emitted ++ [item],set⟩ ∧
    set.capacity = x.set.capacity ∧ Emission.Tabled ⟨x.emitted ++ [item],set⟩ := by
  obtain ⟨pos,hpos,hfree,hholds⟩ :=
    h.holds.exists_insert (by rwa [Emission.names,List.length_map]) item.identifier
  have hitem : (x.emitted ++ [item]).getD x.emitted.length default = item := by
    rw [List.getD_eq_getElem?_getD,List.getElem?_concat_length]
    rfl
  refine ⟨{ x.set with slots := Function.update x.set.slots pos (x.emitted.length + 1) },?_,rfl,
    h.power,fun p => ?_,?_⟩
  · rw [Emission.add,identifierSetInsert,hitem,insertLoop_eq h,IdentifierSet.start,and_capacity h,
      show (identifierHash item.identifier).toNat = hashOf item.identifier from rfl,hfree]
    rfl
  · show Function.update x.set.slots pos (x.emitted.length + 1) p ≤ _
    rw [List.length_append,Function.update_apply]
    have := h.bounded p
    split_ifs
    · exact le_rfl
    · exact this.trans (Nat.le_succ _)
  · have hslots : Emission.slots ⟨x.emitted ++ [item],
        { x.set with slots := Function.update x.set.slots pos (x.emitted.length + 1) }⟩ =
          Function.update x.slots pos (some item.identifier) := by
      funext p
      show keyAt (x.emitted ++ [item])
        (Function.update x.set.slots pos (x.emitted.length + 1) p) = _
      rw [Function.update_apply,Function.update_apply]
      split_ifs with hp
      · rw [keyAt,if_neg (Nat.succ_ne_zero _),Nat.add_sub_cancel,hitem]
      · rw [Emission.slots,keyAt,keyAt]
        have := h.bounded p
        split_ifs with hz
        · rfl
        · rw [List.getD_eq_getElem?_getD,List.getElem?_append_left (by omega),
            ← List.getD_eq_getElem?_getD]
    rw [hslots]
    have hnames : Emission.names ⟨x.emitted ++ [item],
        { x.set with slots := Function.update x.set.slots pos (x.emitted.length + 1) }⟩ =
          x.names ++ [item.identifier] := List.map_append
    rw [hnames]
    exact hholds

/-- The loop over suffixes stops at the first name that is free. -/
theorem suffixLoop_eq {base : CString} (hbase : base.length < baseSize) (address : BitVec 32)
    {n : ℕ} (hlt : n ≤ 2^32) (hfree : candidate base address n ∉ x.names)
    (hmin : ∀ m < n, candidate base address m ∈ x.names) (fuel s : ℕ) (hs : s < n)
    (hfuel : n ≤ s + fuel) :
    suffixLoop x.set x.emitted base address fuel (BitVec.ofNat 32 s) =
      some (some (candidate base address n)) := by
  induction fuel generalizing s with
  | zero => omega
  | succ fuel ih =>
    have hlen := length_candidate base address (n := s + 1) (by omega)
    have hshort : ¬(suffixed base address (BitVec.ofNat 32 s)).length ≥ identifierSize := by
      have : (suffixed base address (BitVec.ofNat 32 s)).length ≤ base.length + 20 := hlen
      have hb : baseSize = 112 := rfl
      have hi : identifierSize = 256 := rfl
      omega
    rw [suffixLoop,if_neg hshort,contains_eq h hroom]
    by_cases heq : s + 1 = n
    · subst heq
      have hno : suffixed base address (BitVec.ofNat 32 s) ∉ x.names := hfree
      rw [decide_eq_false hno]
      rfl
    · have hyes : suffixed base address (BitVec.ofNat 32 s) ∈ x.names := hmin (s + 1) (by omega)
      rw [decide_eq_true hyes]
      have hnext : BitVec.ofNat 32 s + 1 = BitVec.ofNat 32 (s + 1) := by
        rw [BitVec.ofNat_add]
        rfl
      show suffixLoop x.set x.emitted base address fuel (BitVec.ofNat 32 s + 1) = _
      rw [hnext]
      exact ih (s + 1) (by omega) (by omega)

end

section

variable (symbols : List DolRecompSymbol) (sections : List LoadedCodeSection)

/-- The base of a symbol that is emitted, with its address. -/
def namedSymbol (i : ℕ) : Option (CString × BitVec 32) :=
  match codeSize symbols sections i with
  | none => none
  | some _ => (symbolNameToIdentifier (symbolAt symbols i).name baseSize).map fun base =>
    (base,(symbolAt symbols i).address)

def namedSymbols : List (CString × BitVec 32) :=
  (List.range symbols.length).filterMap (namedSymbol symbols sections)

variable {symbols} in
/-- A symbol that is named gets the name that is given to it, and the others are left out. -/
theorem emitSymbol_eq {x : Emission} (h : x.Tabled) (hroom : x.emitted.length < x.set.capacity)
    (hlen : x.emitted.length ≤ symbols.length) (hcount : symbols.length < 2^32) (i : ℕ) :
    match namedSymbol symbols sections i with
    | none => emitSymbol symbols sections x i = some x
    | some (base,address) => ∃ item set, emitSymbol symbols sections x i =
          some ⟨x.emitted ++ [item],set⟩ ∧ item.symbol = i ∧
        item.identifier = nameFor x.names base address ∧ set.capacity = x.set.capacity ∧
          Emission.Tabled ⟨x.emitted ++ [item],set⟩ ∧ (codeSize symbols sections i).isSome := by
  unfold namedSymbol emitSymbol
  cases hsize : codeSize symbols sections i with
  | none => rfl
  | some size =>
    dsimp only
    cases hbase : symbolNameToIdentifier (symbolAt symbols i).name baseSize with
    | none => rfl
    | some base =>
      have hshort := length_base hbase
      have htrunc : truncated identifierSize base = base :=
        List.take_of_length_le (Nat.le_of_lt_succ (hshort.trans (by decide)))
      obtain ⟨n,hn,hname,hfree,hmin⟩ := nameFor_spec base (symbolAt symbols i).address
        x.names (by rw [Emission.names,List.length_map]; omega)
      rw [Emission.names,List.length_map] at hn
      dsimp only [Option.map_some]
      rw [htrunc,contains_eq h hroom]
      by_cases hzero : n = 0
      · subst hzero
        have hno : base ∉ x.names := hfree
        obtain ⟨set,hadd,hcap,htab⟩ := add_tabled h hroom ⟨i,size,base⟩
        rw [decide_eq_false hno]
        exact ⟨_,set,hadd,rfl,hname.symm,hcap,htab,rfl⟩
      · have hyes : base ∈ x.names := hmin 0 (Nat.pos_of_ne_zero hzero)
        have hloop := suffixLoop_eq h hroom hshort (symbolAt symbols i).address (by omega) hfree
          hmin (symbols.length + 1) 0 (Nat.pos_of_ne_zero hzero) (by omega)
        obtain ⟨set,hadd,hcap,htab⟩ := add_tabled h hroom
          ⟨i,size,candidate base (symbolAt symbols i).address n⟩
        rw [decide_eq_true hyes]
        dsimp only
        rw [show (0 : BitVec 32) = BitVec.ofNat 32 0 from rfl,hloop]
        exact ⟨_,set,hadd,rfl,hname.symm,hcap,htab,rfl⟩

variable {symbols} in
theorem emitLoop_eq (hcount : symbols.length < 2^32) (l : List ℕ) {x : Emission} (h : x.Tabled)
    (hroom : x.emitted.length + (l.filter fun i => (codeSize symbols sections i).isSome).length <
      x.set.capacity) (hlen : x.emitted.length + l.length ≤ symbols.length) :
    ∃ x', l.foldlM (emitSymbol symbols sections) x = some x' ∧
      x'.names = (l.filterMap (namedSymbol symbols sections)).foldl
        (fun taken s => taken ++ [nameFor taken s.1 s.2]) x.names ∧
      ∃ s : List ℕ, s.Sublist l ∧
        x'.emitted.map EmittedSymbol.symbol = x.emitted.map EmittedSymbol.symbol ++ s := by
  induction l generalizing x with
  | nil => exact ⟨x,rfl,rfl,[],List.Sublist.refl _,(List.append_nil _).symm⟩
  | cons i l ih =>
    rw [List.length_cons] at hlen
    have hstep := emitSymbol_eq sections h (by omega) (by omega) hcount i
    rw [List.foldlM_cons,List.filterMap_cons]
    cases hnamed : namedSymbol symbols sections i with
    | none =>
      rw [hnamed] at hstep
      have hfilter : (l.filter fun i => (codeSize symbols sections i).isSome).length ≤
          ((i :: l).filter fun i => (codeSize symbols sections i).isSome).length :=
        ((List.sublist_cons_self i l).filter _).length_le
      obtain ⟨x',hrun,hnames,s,hs,hsym⟩ := ih h (by omega) (by omega)
      refine ⟨x',?_,hnames,s,hs.cons i,hsym⟩
      rw [show emitSymbol symbols sections x i = some x from hstep]
      exact hrun
    | some named =>
      obtain ⟨base,address⟩ := named
      rw [hnamed] at hstep
      obtain ⟨item,set,hemit,hitem,hident,hcap,htab,hsome⟩ := hstep
      rw [List.filter_cons_of_pos (p := fun i => (codeSize symbols sections i).isSome) hsome,
        List.length_cons] at hroom
      have hlen' : (x.emitted ++ [item]).length = x.emitted.length + 1 := List.length_append
      obtain ⟨x',hrun,hnames,s,hs,hsym⟩ := ih htab
        (by rw [hcap,hlen']; omega) (by rw [hlen']; omega)
      refine ⟨x',?_,?_,i :: s,hs.cons_cons i,?_⟩
      · rw [hemit]
        exact hrun
      · have hgrown : Emission.names ⟨x.emitted ++ [item],set⟩ =
            x.names ++ [nameFor x.names base address] := by
          rw [← hident]
          exact List.map_append
        rw [hnames,hgrown]
        rfl
      · rw [hsym,List.map_append,List.append_assoc,List.map_singleton,hitem]
        rfl

end

/-- The names that are given are pairwise distinct. -/
theorem nodup_givenNames {l : List (CString × BitVec 32)} (hlen : l.length < 2^32) :
    (givenNames l).Nodup := by
  have hgen : ∀ l : List (CString × BitVec 32), ∀ taken : List CString, taken.Nodup →
      taken.length + l.length < 2^32 →
        (l.foldl (fun taken s => taken ++ [nameFor taken s.1 s.2]) taken).Nodup := by
    intro l
    induction l with
    | nil => exact fun taken hn _ => hn
    | cons s l ih =>
      intro taken hn hlt
      rw [List.length_cons] at hlt
      obtain ⟨n,-,hname,hfree,-⟩ := nameFor_spec s.1 s.2 taken (by omega)
      refine ih _ ?_ (by rw [List.length_append]; simp only [List.length_singleton]; omega)
      show (taken ++ [nameFor taken s.1 s.2]).Nodup
      rw [hname]
      exact List.nodup_append.mpr ⟨hn,List.nodup_singleton _,fun a ha b hb hab =>
        hfree (by rw [← List.mem_singleton.mp hb,← hab]; exact ha)⟩
  exact hgen l [] List.nodup_nil (by rw [List.length_nil]; omega)

theorem growCapacity_eq {target : ℕ} (htarget : target ≤ 2^33) (rounds k : ℕ)
    (hk : target ≤ 2^(k + rounds)) :
    ∃ j, growCapacity target rounds (2^k) = some (2^j) ∧ target ≤ 2^j := by
  induction rounds generalizing k with
  | zero => exact ⟨k,rfl,hk⟩
  | succ rounds ih =>
    rw [growCapacity]
    by_cases hlt : 2^k < target
    · rw [if_pos hlt,if_neg (by omega),← Nat.pow_succ']
      exact ih (k + 1) (by rwa [Nat.add_assoc,Nat.add_comm 1])
    · rw [if_neg hlt]
      exact ⟨k,rfl,by omega⟩

/-- The table is made with room for more names than there are symbols in code. -/
theorem identifierSetInit_room {count : ℕ} (h : count < 2^32) :
    ∃ k, identifierSetInit count = some ⟨fun _ => 0,2^k⟩ ∧ count < 2^k := by
  have htarget : 2*count ≤ 2^33 := by omega
  obtain ⟨k,hgrow,hcap⟩ := growCapacity_eq htarget 64 4 (htarget.trans (by decide))
  refine ⟨k,?_,?_⟩
  · rw [identifierSetInit,show 16 = 2^4 from rfl,hgrow]
    rfl
  · have := Nat.two_pow_pos k
    omega

theorem countCodeSymbols_le (symbols : List DolRecompSymbol) (sections : List LoadedCodeSection) :
    countCodeSymbols symbols sections ≤ symbols.length := by
  refine (List.length_filter_le _ _).trans ?_
  rw [List.length_range]

/-- No symbol is named COUNT, and none SIZE_ and then as a symbol. -/
def NoClash (names : List CString) : Prop :=
  text "COUNT" ∉ names ∧ ∀ x ∈ names, ∀ y ∈ names, x ≠ text "SIZE_" ++ y

/-- The macros are distinct when no names clash. -/
theorem nodup_macros_iff {names : List CString} (hn : names.Nodup) :
    (text "COUNT" :: names.flatMap fun name => [name,text "SIZE_" ++ name]).Nodup ↔
      NoClash names := by
  have hcount : ∀ name, text "COUNT" ≠ text "SIZE_" ++ name := fun name h => by
    have := (List.cons.inj (show (0x43 : BitVec 8) :: text "OUNT" = 0x53 :: (text "IZE_" ++ name)
      from h)).1
    exact absurd this (by decide)
  have hself : ∀ name, name ≠ text "SIZE_" ++ name := fun name h => by
    have hlen := congrArg List.length h
    rw [List.length_append,show (text "SIZE_").length = 5 from rfl] at hlen
    omega
  have hmem : text "COUNT" ∈ names.flatMap (fun name => [name,text "SIZE_" ++ name]) ↔
      text "COUNT" ∈ names := by
    rw [List.mem_flatMap]
    constructor
    · rintro ⟨name,hname,h⟩
      rcases List.mem_cons.mp h with h | h
      · rwa [h]
      · exact absurd (List.mem_singleton.mp h) (hcount name)
    · exact fun h => ⟨_,h,List.mem_cons_self⟩
  rw [List.nodup_cons,hmem,NoClash,List.nodup_flatMap]
  refine and_congr_right fun _ => ⟨fun ⟨_,hpair⟩ x hx y hy => ?_,fun h => ⟨fun name _ => ?_,?_⟩⟩
  · by_cases heq : x = y
    · rw [heq]
      exact hself y
    · intro hxy
      have : Std.Symm (Function.onFun List.Disjoint fun name => [name,text "SIZE_" ++ name]) :=
        ⟨fun _ _ hd => List.Disjoint.symm hd⟩
      exact hpair.forall hx hy heq List.mem_cons_self
        (List.mem_cons_of_mem _ (List.mem_singleton.mpr hxy))
  · rw [List.nodup_cons,List.mem_singleton]
    exact ⟨hself name,List.nodup_singleton _⟩
  · refine hn.pairwise_of_forall_ne fun x hx y hy hne => ?_
    intro a ha hb
    rcases List.mem_cons.mp ha with rfl | ha
    · rcases List.mem_cons.mp hb with hb | hb
      · exact hne hb
      · exact h a hx y hy (List.mem_singleton.mp hb)
    · rw [List.mem_singleton.mp ha] at hb
      rcases List.mem_cons.mp hb with hb | hb
      · exact h y hy x hx hb.symm
      · exact hne (List.append_cancel_left (List.mem_singleton.mp hb))

theorem map_definitions (symbols : List DolRecompSymbol) (emitted : List EmittedSymbol) :
    (definitions symbols emitted).map Prod.fst = (text "COUNT" ::
      (emitted.map EmittedSymbol.identifier).flatMap fun name => [name,text "SIZE_" ++ name]).map
        (macroPrefix ++ ·) := by
  rw [definitions,List.map_cons,List.map_cons,List.map_flatMap,List.map_flatMap,List.flatMap_map]
  rfl

/-- The header has a macro name twice if and only if, of the names that are given to the symbols,
one is COUNT or one is SIZE_ and then another one. -/
theorem symbol_macros_distinct_iff (map : DolRecompSymbolMap) (sections : List LoadedCodeSection) :
    ∃ header, emitSymbolDefinitions (some map) sections = some header ∧
      (header.emitted.map EmittedSymbol.symbol).Nodup ∧
      header.emitted.map EmittedSymbol.identifier =
        givenNames (namedSymbols map.symbols sections) ∧
      ((header.defines.map Prod.fst).Nodup ↔
        NoClash (givenNames (namedSymbols map.symbols sections))) := by
  have hlen : (namedSymbols map.symbols sections).length < 2^32 := by
    refine (List.length_filterMap_le _ _).trans_lt ?_
    rw [List.length_range]
    exact map.count_lt
  rw [emitSymbolDefinitions]
  by_cases hzero : countCodeSymbols map.symbols sections = 0
  · have hnone : namedSymbols map.symbols sections = [] := by
      rw [namedSymbols,List.filterMap_eq_nil_iff]
      intro i hi
      have hcode := List.filter_eq_nil_iff.mp (List.eq_nil_of_length_eq_zero hzero) i hi
      rw [namedSymbol,Option.not_isSome_iff_eq_none.mp hcode]
    rw [if_pos hzero,hnone]
    exact ⟨_,rfl,List.nodup_nil,rfl,iff_of_true List.nodup_nil ⟨List.not_mem_nil,nofun⟩⟩
  · obtain ⟨k,hinit,hbelow⟩ := identifierSetInit_room
      ((countCodeSymbols_le map.symbols sections).trans_lt map.count_lt)
    have htab : Emission.Tabled ⟨[],⟨fun _ => 0,2^k⟩⟩ :=
      ⟨⟨k,rfl⟩,fun _ => le_rfl,holds_empty _ _⟩
    have hroom : 0 + ((List.range map.symbols.length).filter fun i =>
        (codeSize map.symbols sections i).isSome).length < 2^k := by
      unfold countCodeSymbols at hbelow
      omega
    obtain ⟨x,hrun,hnames,s,hs,hsym⟩ := emitLoop_eq sections map.count_lt
      (List.range map.symbols.length) htab hroom
      (by rw [List.length_range]; exact (Nat.zero_add _).le)
    rw [if_neg hzero,hinit]
    dsimp only
    rw [hrun]
    have hgiven : x.emitted.map EmittedSymbol.identifier =
        givenNames (namedSymbols map.symbols sections) := hnames
    refine ⟨_,rfl,?_,hgiven,?_⟩
    · show (x.emitted.map EmittedSymbol.symbol).Nodup
      rw [hsym]
      exact hs.nodup List.nodup_range
    · show ((definitions map.symbols x.emitted).map Prod.fst).Nodup ↔ _
      rw [map_definitions,hgiven,List.nodup_map_iff fun a b h => List.append_cancel_left h]
      exact nodup_macros_iff (nodup_givenNames hlen)

/-- A map of one symbol at the start of a section. -/
def oneSymbol (name : CString) : DolRecompSymbolMap :=
  ⟨[⟨0x80003100,0,name⟩],show 1 < 2^32 by decide⟩

/-- The macro of a symbol that is named COUNT has the name of the macro for the number
of symbols. -/
theorem symbol_macros_clash :
    ¬∀ map sections header, emitSymbolDefinitions (some map) sections = some header →
      (header.defines.map Prod.fst).Nodup := by
  intro hall
  have hnames : (emitSymbolDefinitions (some (oneSymbol (text "COUNT"))) [⟨0x80003100,0x100⟩]).map
      (fun header => header.defines.map Prod.fst) = some [text "DOLRECOMP_SYMBOL_COUNT",
        text "DOLRECOMP_SYMBOL_COUNT",text "DOLRECOMP_SYMBOL_SIZE_COUNT"] := by decide
  obtain ⟨header,hrun,hdefines⟩ := Option.map_eq_some_iff.mp hnames
  have hnodup := hall _ _ header hrun
  rw [hdefines] at hnodup
  exact (List.nodup_cons.mp hnodup).1 List.mem_cons_self

end Symbols

end DolRecomp
