import DolRecomp.SymbolClashes
import Mathlib.Data.List.Chain

/-!
# The table of identifiers

While the symbols are emitted, the table answers for every name whether a symbol has it. A name that
has been made an identifier stays as it is.
-/

namespace DolRecomp

namespace Symbols

open Disc LinearProbing

/-- The state of `emit_symbol_definitions` before a symbol; `none` when a search does not end. -/
def emissionAt (map : DolRecompSymbolMap) (sections : List LoadedCodeSection) (n : ℕ) :
    Option Emission :=
  (identifierSetInit (countCodeSymbols map.symbols sections)).bind fun set =>
    (List.range n).foldlM (emitSymbol map.symbols sections) ⟨[],set⟩

theorem emitSymbol_tabled {symbols : List DolRecompSymbol} (sections : List LoadedCodeSection)
    {x : Emission} (h : x.Tabled) (hroom : x.emitted.length < x.set.capacity)
    (hlen : x.emitted.length ≤ symbols.length) (hcount : symbols.length < 2^32) (i : ℕ) :
    ∃ x', emitSymbol symbols sections x i = some x' ∧ x'.Tabled ∧
      x'.set.capacity = x.set.capacity ∧
      x'.emitted.length ≤ x.emitted.length +
        if (codeSize symbols sections i).isSome then 1 else 0 := by
  have hstep := emitSymbol_eq sections h hroom hlen hcount i
  cases hnamed : namedSymbol symbols sections i with
  | none =>
    rw [hnamed] at hstep
    exact ⟨x,hstep,h,rfl,Nat.le_add_right _ _⟩
  | some named =>
    rw [hnamed] at hstep
    obtain ⟨item,set,hemit,-,-,hcap,htab,hsome⟩ := hstep
    refine ⟨_,hemit,htab,hcap,?_⟩
    rw [if_pos hsome,List.length_append,List.length_singleton]

theorem codeSymbols_below (symbols : List DolRecompSymbol) (sections : List LoadedCodeSection)
    {n : ℕ} (hn : n ≤ symbols.length) : ((List.range n).filter fun i =>
      (codeSize symbols sections i).isSome).length ≤ countCodeSymbols symbols sections :=
  ((List.range_sublist.mpr hn).filter _).length_le

/-- Every prefix of the loop ends with the table of what it has emitted, one name at most for each
symbol in code. -/
theorem emitSymbol_run (map : DolRecompSymbolMap) (sections : List LoadedCodeSection) {k : ℕ}
    (hroom : countCodeSymbols map.symbols sections < 2^k) {n : ℕ} (hn : n ≤ map.symbols.length) :
    ∃ x, (List.range n).foldlM (emitSymbol map.symbols sections) ⟨[],⟨fun _ => 0,2^k⟩⟩ = some x ∧
      x.Tabled ∧ x.set.capacity = 2^k ∧
      x.emitted.length ≤ ((List.range n).filter fun i =>
        (codeSize map.symbols sections i).isSome).length := by
  have hcount := countCodeSymbols_le map.symbols sections
  induction n with
  | zero => exact ⟨_,rfl,⟨⟨k,rfl⟩,fun _ => le_rfl,holds_empty _ _⟩,rfl,Nat.zero_le _⟩
  | succ n ih =>
    obtain ⟨x,hx,htab,hsize,hlen⟩ := ih (by omega)
    have hcode := codeSymbols_below map.symbols sections (show n ≤ map.symbols.length by omega)
    obtain ⟨x',hemit,htab',hsize',hlen'⟩ := @emitSymbol_tabled map.symbols sections x htab
      (by omega) (by omega) map.count_lt n
    refine ⟨x',?_,htab',hsize'.trans hsize,?_⟩
    · rw [List.range_succ,List.foldlM_append,hx]
      show (emitSymbol map.symbols sections x n).bind some = _
      rw [hemit]
      rfl
    · rw [List.range_succ,List.filter_append,List.length_append]
      refine hlen'.trans (Nat.add_le_add hlen ?_)
      split
      · next h => rw [List.filter_singleton,h]; exact le_rfl
      · exact Nat.zero_le _

theorem emissionAt_tabled (map : DolRecompSymbolMap) (sections : List LoadedCodeSection) {n : ℕ}
    (hn : n ≤ map.symbols.length) : ∃ x, emissionAt map sections n = some x ∧ x.Tabled ∧
      x.emitted.length < x.set.capacity := by
  have hcount := countCodeSymbols_le map.symbols sections
  obtain ⟨k,hinit,hroom⟩ := identifierSetInit_room (hcount.trans_lt map.count_lt)
  obtain ⟨x,hx,htab,hsize,hlen⟩ := emitSymbol_run map sections hroom hn
  have hcode := codeSymbols_below map.symbols sections hn
  refine ⟨x,?_,htab,by omega⟩
  rw [emissionAt,hinit]
  exact hx

/-- `isalnum`, or an underscore -/
def IdentifierByte (c : BitVec 8) : Prop := isAlnum c = true ∨ c = underscore

/-- Letters, digits and single underscores, and no digit first. -/
structure Clean (s : CString) : Prop where
  bytes : ∀ c ∈ s, IdentifierByte c
  first : ∀ c ∈ s.head?, isDigit c = false
  single : s.IsChain fun c d => ¬(c = underscore ∧ d = underscore)

theorem clean_nil : Clean [] := ⟨by simp,by simp,List.isChain_nil⟩

theorem isDigit_underscore : isDigit underscore = false := by decide

theorem clean_append {s : CString} {c : BitVec 8} (h : Clean s) (hc : IdentifierByte c)
    (hfirst : s = [] → isDigit c = false) (hlast : s.getLast? = some underscore → c ≠ underscore) :
    Clean (s ++ [c]) := by
  refine ⟨fun d hd => ?_,?_,?_⟩
  · rcases List.mem_append.mp hd with hd | hd
    · exact h.bytes d hd
    · rwa [List.mem_singleton.mp hd]
  · cases s with
    | nil =>
      intro d hd
      rw [← Option.some.inj hd]
      exact hfirst rfl
    | cons a s => exact h.first
  · refine List.isChain_append.mpr ⟨h.single,List.isChain_singleton _,fun a ha b hb => ?_⟩
    rw [← Option.some.inj hb]
    rintro ⟨rfl,hu⟩
    exact hlast ha hu

/-- What the loop has written, and what it remembers of the last byte. -/
theorem clean_identifierLoop {outputSize : ℕ} (name : CString) {output : CString} {previous : Bool}
    (h : Clean output) (hlast : output.getLast? = some underscore → previous = true) :
    Clean (identifierLoop outputSize name output previous) := by
  induction name generalizing output previous with
  | nil => exact h
  | cons ch name ih =>
    rw [identifierLoop]
    have hemitted : IdentifierByte (if (isAlnum ch || ch == underscore) = true then ch
        else underscore) := by
      split
      · next hk =>
        rcases Bool.or_eq_true_iff.mp hk with ha | hu
        · exact Or.inl ha
        · exact Or.inr (beq_iff_eq.mp hu)
      · exact Or.inr rfl
    generalize (if (isAlnum ch || ch == underscore) = true then ch else underscore) = emitted
      at hemitted
    dsimp only
    split
    · exact h
    · by_cases hlead : output = [] ∧ isDigit emitted = true
      · have hne : emitted ≠ underscore := fun he => by
          rw [he,isDigit_underscore] at hlead
          exact Bool.false_ne_true hlead.2
        rw [if_pos hlead,if_neg fun hu => hne hu.1]
        have hgrown : Clean (output ++ [underscore]) := by
          refine clean_append h (Or.inr rfl) (fun _ => isDigit_underscore) fun hl => ?_
          rw [hlead.1] at hl
          cases hl
        split
        · exact hgrown
        · refine ih (clean_append hgrown hemitted (by simp) fun _ => hne) fun hl => ?_
          rw [List.getLast?_concat] at hl
          exact absurd (Option.some.inj hl) hne
      · rw [if_neg hlead]
        split
        · exact ih h hlast
        · next hskip =>
          split
          · exact h
          · refine ih (clean_append h hemitted (fun hnil => ?_) fun hl hu => ?_) fun hl => ?_
            · exact Bool.eq_false_iff.mpr fun hd => hlead ⟨hnil,hd⟩
            · exact hskip ⟨hu,hlast hl⟩
            · rw [List.getLast?_concat] at hl
              exact decide_eq_true (Option.some.inj hl)

theorem Clean.of_prefix {s t : CString} (h : Clean t) (hp : s <+: t) : Clean s := by
  obtain ⟨u,rfl⟩ := hp
  refine ⟨fun c hc => h.bytes c (List.mem_append_left _ hc),fun c hc => h.first c ?_,
    (List.isChain_append.mp h.single).1⟩
  cases s with
  | nil => cases hc
  | cons a s => exact hc

/-- What is left ends with something else than an underscore, or is a single byte. -/
structure Stripped (s : CString) : Prop where
  last : s.length ≤ 1 ∨ s.getLast? ≠ some underscore

theorem dropUnderscores_suffix (output : CString) : dropUnderscores output <:+ output := by
  induction output with
  | nil => exact List.suffix_rfl
  | cons c output ih =>
    cases output with
    | nil => exact List.suffix_rfl
    | cons d output =>
      rw [dropUnderscores]
      split
      · exact ih.trans (List.suffix_cons _ _)
      · exact List.suffix_rfl

theorem stripped_dropUnderscores (output : CString) :
    Stripped (dropUnderscores output).reverse := by
  induction output with
  | nil => exact ⟨Or.inl (Nat.zero_le _)⟩
  | cons c output ih =>
    cases output with
    | nil => exact ⟨Or.inl le_rfl⟩
    | cons d output =>
      rw [dropUnderscores]
      split
      · exact ih
      · next hc =>
        refine ⟨Or.inr ?_⟩
        rw [List.getLast?_reverse,List.head?_cons]
        exact fun h => hc (Option.some.inj h)

theorem dropUnderscores_eq {s : CString} (h : Stripped s) :
    dropUnderscores s.reverse = s.reverse := by
  have hlen : s.reverse.length = s.length := List.length_reverse
  have hlast := List.head?_reverse (l := s)
  generalize s.reverse = r at hlen hlast
  match r with
  | [] => rfl
  | [c] => rfl
  | c :: d :: rest =>
    rw [dropUnderscores,if_neg]
    rintro rfl
    rcases h.last with hl | hl
    · rw [← hlen] at hl
      exact absurd hl (by simp)
    · exact hl hlast.symm

/-- The loop copies what is clean, as far as it has room. -/
theorem identifierLoop_clean {outputSize : ℕ} (rest : CString) {output : CString}
    {previous : Bool} (h : Clean (output ++ rest)) (hroom : (output ++ rest).length < outputSize)
    (hlast : previous = true → output.getLast? = some underscore) :
    identifierLoop outputSize rest output previous = output ++ rest := by
  induction rest generalizing output previous with
  | nil => rw [identifierLoop,List.append_nil]
  | cons c rest ih =>
    have hbyte : (isAlnum c || c == underscore) = true := by
      rcases h.bytes c (List.mem_append_right _ List.mem_cons_self) with ha | hu
      · rw [ha,Bool.true_or]
      · rw [hu,beq_self_eq_true,Bool.or_true]
    have hlead : ¬(output = [] ∧ isDigit c = true) := by
      rintro ⟨rfl,hd⟩
      exact Bool.false_ne_true ((h.first c rfl).symm.trans hd)
    have hsingle : ¬(c = underscore ∧ previous = true) := by
      rintro ⟨hu,hp⟩
      exact (List.isChain_append.mp h.single).2.2 underscore (hlast hp) c rfl ⟨rfl,hu⟩
    have hspace : ¬ output.length + 1 ≥ outputSize := by
      rw [List.length_append,List.length_cons] at hroom
      omega
    rw [List.append_cons] at h hroom
    rw [identifierLoop]
    simp only [hbyte,if_true]
    rw [if_neg fun hl => hlead hl.1,if_neg hlead,if_neg hsingle,if_neg hspace,
      ih h hroom fun hu => by rw [List.getLast?_concat,of_decide_eq_true hu]]
    rw [List.append_assoc,List.singleton_append]

/-- An identifier of a name: clean, stripped, not empty and short enough. -/
structure Identifier (outputSize : ℕ) (s : CString) : Prop where
  clean : Clean s
  stripped : Stripped s
  nonempty : s ≠ []
  short : s.length < outputSize

theorem identifier_of_name {name s : CString} {outputSize : ℕ}
    (h : symbolNameToIdentifier name outputSize = some s) : Identifier outputSize s := by
  unfold symbolNameToIdentifier at h
  split at h
  · cases h
  next hsize =>
  dsimp only at h
  split at h
  · cases h
  next hne =>
  rw [← Option.some.inj h]
  have hsuffix := dropUnderscores_suffix (identifierLoop outputSize name [] false).reverse
  have hpre := List.reverse_prefix.mpr hsuffix
  rw [List.reverse_reverse] at hpre
  have hclean := @clean_identifierLoop outputSize name [] false clean_nil nofun
  have hlen := @length_identifierLoop outputSize name [] false (Nat.pos_of_ne_zero hsize)
  exact ⟨hclean.of_prefix hpre,stripped_dropUnderscores _,hne,hpre.length_le.trans_lt hlen⟩

theorem symbolNameToIdentifier_eq_self {s : CString} {outputSize : ℕ}
    (h : Identifier outputSize s) : symbolNameToIdentifier s outputSize = some s := by
  have hloop := @identifierLoop_clean outputSize s [] false h.clean h.short nofun
  have hshort := h.short
  rw [symbolNameToIdentifier,if_neg (by omega),hloop,List.nil_append,dropUnderscores_eq h.stripped,
    List.reverse_reverse]
  exact if_neg h.nonempty

/-- While the symbols are emitted every search ends, and a name is found exactly when a symbol has
it. An identifier has letters, digits and underscores, no digit first, and stays as it is. -/
theorem identifier_table_correct (map : DolRecompSymbolMap) (sections : List LoadedCodeSection) :
    (∀ n ≤ map.symbols.length, ∃ x, emissionAt map sections n = some x ∧
      ∀ identifier, identifierSetContains x.set x.emitted identifier =
        some (decide (∃ item ∈ x.emitted, item.identifier = identifier))) ∧
    ∀ name outputSize s, symbolNameToIdentifier name outputSize = some s →
      (∀ c ∈ s, IdentifierByte c) ∧ (∀ c ∈ s.head?, isDigit c = false) ∧
        symbolNameToIdentifier s outputSize = some s := by
  refine ⟨fun n hn => ?_,fun name outputSize s h => ?_⟩
  · obtain ⟨x,hx,htab,hroom⟩ := emissionAt_tabled map sections hn
    refine ⟨x,hx,fun identifier => ?_⟩
    rw [contains_eq htab hroom]
    exact congrArg some (decide_eq_decide.mpr List.mem_map)
  · have hid := identifier_of_name h
    exact ⟨hid.clean.bytes,hid.clean.first,symbolNameToIdentifier_eq_self hid⟩

end Symbols

end DolRecomp
