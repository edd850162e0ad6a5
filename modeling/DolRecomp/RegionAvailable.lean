import DolRecomp.ValidationCounter

/-!
# The fast path of `region_available`

The counter can read zero while a range is not valid: a range that is validated
again before its invalidation is counted is subtracted twice. In runs without
that race the answer of `region_available` can be trusted.
-/

namespace DolRecomp

namespace Validation

open Threads

variable (M : Module)

/-- What is promised of `region_available` in the runs whose steps are in `R`: a call does
not return true over a range that was not valid during the whole call and was not being
invalidated when the call began, and the counter is not zero meanwhile. -/
def RegionSafe (R : Config Shared Op → Config Shared Op → Prop) : Prop :=
  ∀ (mem : Memory → ℕ → BitVec 8) (c0 c1 : Config Shared Op) (k r : ℕ) (start endAddr : BitVec 32)
    (range : NativeRange),
    Relation.ReflTransGen R (initial M mem) c0 → c0.ops[k]? = some (.region start endAddr .read) →
    M.table.ranges[r]? = some range → range.Overlaps start endAddr →
    (∀ op ∈ c0.ops, op.adding ≠ some r) → ¬Valid c0.shared r →
    Relation.ReflTransGen (fun c c' => R c c' ∧ ¬Valid c'.shared r) c0 c1 →
    c1.ops[k]? ≠ some (.region start endAddr (.done true)) ∧ c1.shared.unavailable ≠ 0

def inFlight (c : Config Shared Op) : ℕ := c.ops.countP fun op => !op.finished

/-- Fewer ranges and operations than the counter can count. -/
def Few (c : Config Shared Op) : Prop := M.table.ranges.length + inFlight c < 2 ^ 32

/-- A step that makes no range valid whose invalidation is still to be counted, among fewer
operations than the counter can count. -/
structure QuietStep (c c' : Config Shared Op) : Prop where
  step : Step (system M) c c'
  quiet : ∀ e, ¬Valid c.shared e → Valid c'.shared e → ∀ op ∈ c.ops, op.adding ≠ some e
  few : Few M c'

/-- The invalidations of a range that are still to be counted. -/
def pending (e : ℕ) (ops : List Op) : ℕ := ops.countP fun op => op.adding == some e

theorem pending_eq_zero {e : ℕ} {ops : List Op} :
    pending e ops = 0 ↔ ∀ op ∈ ops, op.adding ≠ some e := by
  simp [pending,List.countP_eq_zero]

/-- Each range that is not valid owes at most one count, the others none. -/
def OneEach (c : Config Shared Op) : Prop :=
  ∀ e, pending e c.ops ≤ if e ∈ bad M.table.ranges.length c.shared then 1 else 0

theorem pending_set {k e : ℕ} {ops : List Op} {op op' : Op} (hk : ops[k]? = some op)
    (h : op'.adding = op.adding) : pending e (ops.set k op') = pending e ops := by
  have := countP_set_add (fun op => op.adding == some e) op' hk
  rw [h] at this
  exact Nat.add_right_cancel this

theorem oneEach_effect {n k : ℕ} {s s' : Shared} {ops : List Op} {op op' : Op}
    (hk : ops[k]? = some op) (h : Effect n s op s' op')
    (hc : ∀ e, pending e ops ≤ if e ∈ bad n s then 1 else 0)
    (hq : ∀ e, ¬Valid s e → Valid s' e → ∀ op ∈ ops, op.adding ≠ some e) (e : ℕ) :
    pending e (ops.set k op') ≤ if e ∈ bad n s' then 1 else 0 := by
  cases h with
  | none hs ha => exact pending_set hk ha ▸ hc e
  | keep he hv hw hs ha =>
    rw [pending_set hk ha,bad_setState_invalid he hw,Finset.insert_eq_of_mem (mem_bad.2 ⟨he,hv⟩)]
    exact hc e
  | @validate _ i w he hv hw hs hs' ha =>
    rw [pending_set hk ha,bad_setState_valid hw]
    by_cases hi : e = i
    · have h0 := pending_eq_zero.2 (hq i hv (valid_setState.2 (by rw [if_pos rfl]; exact hw)))
      rw [hi,h0]
      exact Nat.zero_le _
    · simpa [hi] using hc e
  | @invalidate _ i w he hv hw hs ha ha' =>
    have hadd := countP_set_add (fun op => op.adding == some e) op' hk
    rw [ha,ha'] at hadd
    change pending e (ops.set k op') + _ = pending e ops + _ at hadd
    have he' := hc e
    rw [bad_setState_invalid he hw]
    by_cases hi : e = i
    · have : i ∉ bad n s := fun h => (mem_bad.1 h).2 hv
      subst hi
      rw [if_neg this] at he'
      simp at hadd ⊢
      omega
    · have hne : ¬i = e := fun h => hi h.symm
      simp [hi,hne] at hadd he' ⊢
      omega
  | subtract hs hs' ha =>
    rw [pending_set hk ha]
    exact hc e
  | @add _ i hs ha ha' =>
    have hadd := countP_set_add (fun op => op.adding == some e) op' hk
    rw [ha,ha'] at hadd
    change pending e (ops.set k op') + _ = pending e ops + _ at hadd
    have he' := hc e
    show _ ≤ if e ∈ bad n s then 1 else 0
    simp at hadd
    omega

theorem oneEach_step {c c' : Config Shared Op} (hc : Counted M c) (ho : OneEach M c)
    (h : QuietStep M c c') : OneEach M c' := by
  obtain ⟨hstep,hq,-⟩ := h
  cases hstep with
  | @act k op op' s' hk h =>
    obtain ⟨he,-⟩ := act_effect M h (hc.ok op (mem_of_get hk))
    exact oneEach_effect hk he ho hq
  | env h =>
    cases h with
    | write => exact ho
    | reset h =>
      intro e
      have h0 : pending e c.ops = 0 := pending_eq_zero.2 fun op hop => by
        rw [(finished_owes (h op hop)).2]
        exact fun h => nomatch h
      show pending e c.ops ≤ _
      rw [h0]
      exact Nat.zero_le _
  | @new op h =>
    intro e
    obtain ⟨-,ha,-⟩ := call_owes M h
    have h0 : pending e (c.ops ++ [op]) = pending e c.ops := by simp [pending,ha]
    show pending e (c.ops ++ [op]) ≤ _
    rw [h0]
    exact ho e

theorem countP_le_card (ops : List Op) (T : Finset ℕ)
    (h : ∀ e, pending e ops ≤ if e ∈ T then 1 else 0) :
    ops.countP (fun op => op.adding.isSome) ≤ T.card := by
  induction ops generalizing T with
  | nil => exact Nat.zero_le _
  | cons op ops ih =>
    rcases ha : op.adding with _ | i
    · have hp (e : ℕ) : pending e (op :: ops) = pending e ops := by simp [pending,ha]
      simp only [hp] at h
      simpa [ha] using ih T h
    · have hi := h i
      have hp (e : ℕ) : pending e (op :: ops) = pending e ops + if i = e then 1 else 0 := by
        simp [pending,ha,List.countP_cons]
      have hmem : i ∈ T := by
        by_contra hn
        rw [hp,if_pos rfl,if_neg hn] at hi
        omega
      have hrest := ih (T.erase i) fun e => by
        have he := h e
        rw [hp] at he
        by_cases hie : i = e
        · subst hie
          simp [hmem] at he ⊢
          omega
        · have hne : e ≠ i := fun h => hie h.symm
          simpa [hie,hne] using he
      have hcard := Finset.card_erase_add_one hmem
      simp only [List.countP_cons,ha]
      simp
      omega

/-- A zero counter means that every range that is not valid is about to be counted. -/
theorem pending_of_zero {c : Config Shared Op} (hc : Counted M c) (ho : OneEach M c)
    (hf : Few M c) (h0 : c.shared.unavailable = 0) {r : ℕ}
    (hr : r ∈ bad M.table.ranges.length c.shared) : pending r c.ops ≠ 0 := by
  intro hp
  rw [Few] at hf
  have hle : adds c ≤ ((bad M.table.ranges.length c.shared).erase r).card := by
    refine countP_le_card c.ops _ fun e => ?_
    by_cases he : e = r
    · rw [he,hp]
      exact Nat.zero_le _
    · simpa [he] using ho e
  have hcard := Finset.card_erase_add_one hr
  have hbad : (bad M.table.ranges.length c.shared).card ≤ M.table.ranges.length := by
    have := Finset.card_filter_le (Finset.range M.table.ranges.length) fun e => ¬Valid c.shared e
    rwa [Finset.card_range] at this
  have hsubs : subs c ≤ inFlight c := by
    refine List.countP_mono_left fun op _ h => ?_
    rcases hfin : op.finished with _ | _
    · rfl
    · rw [(finished_owes hfin).1] at h
      cases h
  have h := congrArg BitVec.toNat hc.counter
  rw [h0] at h
  simp only [BitVec.ofNat_eq_ofNat,BitVec.zero_add,BitVec.toNat_ofNat] at h
  rw [Nat.mod_eq_of_lt (by omega),Nat.mod_eq_of_lt (by omega)] at h
  omega

/-- What holds in every run of quiet steps. -/
structure Quiet (c : Config Shared Op) : Prop where
  counted : Counted M c
  oneEach : OneEach M c
  few : Few M c

theorem quiet_initial (mem : Memory → ℕ → BitVec 8) : Quiet M (initial M mem) :=
  ⟨counted_initial M mem,fun _ => Nat.zero_le _,M.table.short⟩

theorem quiet_step {c c' : Config Shared Op} (hc : Quiet M c) (h : QuietStep M c c') : Quiet M c' :=
  ⟨counted_step M hc.counted h.step,oneEach_step M hc.counted hc.oneEach h,h.few⟩

theorem quiet_run {mem : Memory → ℕ → BitVec 8} {c : Config Shared Op}
    (h : Relation.ReflTransGen (QuietStep M) (initial M mem) c) : Quiet M c := by
  induction h with
  | refl => exact quiet_initial M mem
  | tail _ hs ih => exact quiet_step M ih hs

def Before (r : ℕ) : RPc → Prop
  | .read | .find => True
  | .loop index => index ≤ r
  | .check index pc => index ≤ r ∧ (index = r → pc ≠ .count ∧ pc ≠ .done true)
  | .done result => result = false

theorem afterLoad_invalid {index : ℕ} {w : BitVec 32} (h : status w ≠ valid) :
    afterLoad M index w ≠ .count ∧ afterLoad M index w ≠ .done true := by
  refine ⟨afterLoad_ne_count M index w,?_⟩
  rw [afterLoad,if_neg h]
  split
  · rintro ⟨⟩
  · split <;> rintro ⟨⟩

/-- A validator of a range that stays invalid does not succeed. -/
theorem vact_invalid {r : ℕ} {s s' : Shared} {pc pc' : VPc} (h : VAct M r s pc s' pc')
    (hv : ¬Valid s r) (hv' : ¬Valid s' r) (hpc : pc ≠ .count ∧ pc ≠ .done true) :
    pc' ≠ .count ∧ pc' ≠ .done true := by
  cases h with
  | load => exact afterLoad_invalid M hv
  | byte => exact ⟨fun h => (nomatch h),fun h => nomatch h⟩
  | hashed => exact ⟨fun h => (nomatch h),fun h => nomatch h⟩
  | @publish observed isMatch hw =>
    cases isMatch with
    | false => exact ⟨fun h => (nomatch h),fun h => nomatch h⟩
    | true => exact absurd (valid_setState.2 (by simp)) hv'
  | retry => exact afterLoad_invalid M hv
  | count => exact absurd rfl hpc.1

theorem ract_before {r : ℕ} {s s' : Shared} {start endAddr : BitVec 32} {pc pc' : RPc}
    {range : NativeRange} (hr : M.table.ranges[r]? = some range) (hover : range.Overlaps start endAddr)
    (h : RAct M start endAddr s pc s' pc') (h0 : s.unavailable ≠ 0) (hv : ¬Valid s r)
    (hv' : ¬Valid s' r) (hpc : Before r pc) : Before r pc' := by
  cases h with
  | zero h => exact absurd h h0
  | nonzero => trivial
  | miss => rfl
  | @found index h =>
    obtain ⟨first,hi,hc⟩ := (M.table.search_eq_some_iff start index).1 h
    show index ≤ r
    by_contra hlt
    have hle := M.table.end_le_start hr hi (Nat.lt_of_not_le hlt)
    exact absurd hover.2 (BitVec.not_lt.2 (BitVec.le_trans hle hc.1))
  | check hi hlt => exact ⟨hpc,fun _ => ⟨fun h => (nomatch h),fun h => nomatch h⟩⟩
  | @all index h =>
    -- every range up to the watched one starts before the end
    exfalso
    rcases Nat.lt_or_eq_of_le hpc with hlt | heq
    · have hir : index < M.table.ranges.length := Nat.lt_trans hlt (getElem?_lt M hr)
      have hi := List.getElem?_eq_getElem hir
      have h1 := M.table.end_le_start hi hr hlt
      have h2 := M.table.start_lt_end hi
      have h3 := h _ hi
      have h4 := hover.1
      bv_omega
    · subst heq
      exact absurd hover.1 (BitVec.not_lt.2 (h range hr))
  | @step index _ _ _ h =>
    refine ⟨hpc.1,fun hir => ?_⟩
    subst hir
    exact vact_invalid M h hv hv' (hpc.2 rfl)
  | @next index =>
    have hne : index ≠ r := fun h => (hpc.2 h).2 rfl
    exact Nat.lt_of_le_of_ne hpc.1 hne
  | fail => rfl

/-- While a range stays invalid, no operation comes to owe its count. -/
theorem step_adding {c c' : Config Shared Op} (hc : Counted M c) (h : Step (system M) c c') {r : ℕ}
    (hv : ¬Valid c.shared r) (ha : ∀ op ∈ c.ops, op.adding ≠ some r) :
    ∀ op ∈ c'.ops, op.adding ≠ some r := by
  cases h with
  | @act k op op' s' hk h =>
    obtain ⟨he,-⟩ := act_effect M h (hc.ok op (mem_of_get hk))
    have hop := ha op (mem_of_get hk)
    refine forall_set ha ?_
    cases he with
    | none _ h => exact h ▸ hop
    | keep _ _ _ _ h => exact h ▸ hop
    | validate _ _ _ _ _ h => exact h ▸ hop
    | @invalidate _ e w _ hve _ _ _ h =>
      rw [h]
      intro her
      cases her
      exact hv hve
    | subtract _ _ h => exact h ▸ hop
    | add _ _ h =>
      rw [h]
      exact fun h => nomatch h
  | env h => exact ha
  | new h =>
    refine forall_append ha ?_
    rw [(call_owes M h).2.1]
    exact fun h => nomatch h

/-- The watched call and the watched range, after any steps. -/
structure Watched (k r : ℕ) (start endAddr : BitVec 32) (c : Config Shared Op) : Prop where
  invalid : ¬Valid c.shared r
  counted : ∀ op ∈ c.ops, op.adding ≠ some r
  call : ∃ pc, c.ops[k]? = some (.region start endAddr pc) ∧ Before r pc

theorem watched_nonzero {c : Config Shared Op} (hc : Quiet M c) {k r : ℕ} {start endAddr : BitVec 32}
    {range : NativeRange} (hr : M.table.ranges[r]? = some range) (hw : Watched k r start endAddr c) :
    c.shared.unavailable ≠ 0 := fun h0 =>
  pending_of_zero M hc.counted hc.oneEach hc.few h0 (mem_bad.2 ⟨getElem?_lt M hr,hw.invalid⟩)
    (pending_eq_zero.2 hw.counted)

theorem watched_step {c c' : Config Shared Op} (hc : Quiet M c) (h : QuietStep M c c') {k r : ℕ}
    {start endAddr : BitVec 32} {range : NativeRange} (hr : M.table.ranges[r]? = some range)
    (hover : range.Overlaps start endAddr) (hv' : ¬Valid c'.shared r) (hw : Watched k r start endAddr c) :
    Watched k r start endAddr c' := by
  have h0 := watched_nonzero M hc hr hw
  refine ⟨hv',step_adding M hc.counted h.step hw.invalid hw.counted,?_⟩
  obtain ⟨pc,hpc,hb⟩ := hw.call
  cases h.step with
  | @act j op op' s' hj hact =>
    by_cases hjk : k = j
    · subst hjk
      rw [hpc,Option.some.injEq] at hj
      subst hj
      cases hact with
      | region hact => exact ⟨_,get_set_self hpc,ract_before M hr hover hact h0 hw.invalid hv' hb⟩
    · exact ⟨pc,(get_set_ne hjk).trans hpc,hb⟩
  | env => exact ⟨pc,hpc,hb⟩
  | new => exact ⟨pc,get_append hpc _,hb⟩

/-- In every run whose steps are quiet, `region_available` is safe. -/
theorem region_available_safe : RegionSafe M (QuietStep M) := by
  intro mem c0 c1 k r start endAddr range h0 hk hr hover ha hv hrun
  have hall : Quiet M c1 ∧ Watched k r start endAddr c1 := by
    induction hrun with
    | refl => exact ⟨quiet_run M h0,hv,ha,_,hk,trivial⟩
    | tail _ hs ih =>
      exact ⟨quiet_step M ih.1 hs.1,watched_step M ih.1 hs.1 hr hover hs.2 ih.2⟩
  refine ⟨fun hdone => ?_,watched_nonzero M hall.1 hr hall.2⟩
  obtain ⟨pc,hpc,hb⟩ := hall.2.call
  rw [hdone,Option.some.injEq] at hpc
  cases hpc
  cases hb

/-- Two adjacent ranges of one word; only the second one has its recorded bytes, zeros. -/
def twoRanges : Module where
  table :=
    { ranges := [⟨0x80003100,0x80003104,0⟩,⟨0x80003104,0x80003108,0x4D25767F9DCE13F5⟩]
      sorted := by decide
      proper := by decide
      short := by decide }
  mem1Size := 0x01800000
  mem2Size := 0

def raceStart : Shared := reset twoRanges ⟨fun _ => 0,0,fun _ _ => 0⟩

theorem quietStep_region {s s' : Shared} {start endAddr : BitVec 32} {pc pc' : RPc}
    (h : RAct M start endAddr s pc s' pc') (hf : M.table.ranges.length + 1 < 2 ^ 32) :
    QuietStep M ⟨s,[.region start endAddr pc]⟩ ⟨s',[.region start endAddr pc']⟩ where
  step := .act (k := 0) rfl (.region h)
  quiet := by
    intro e _ _ op hop
    rw [List.mem_singleton.1 hop]
    rintro ⟨⟩
  few := Nat.lt_of_le_of_lt (Nat.add_le_add_left List.countP_le_length _) hf

/-- A call over both ranges, and no other operation. -/
def regionCall (s : Shared) (pc : RPc) : Config Shared Op :=
  ⟨s,[.region 0x80003100 0x80003108 pc]⟩

def firstChanged : Shared := raceStart.setState 0 (published (raceStart.state 0) false)

/-- From the reset on the call hashes the first range and returns false. -/
theorem regionCall_returns : Relation.ReflTransGen
    (fun c c' => QuietStep twoRanges c c' ∧ ¬Valid c'.shared 0) (regionCall raceStart .read)
    (regionCall firstChanged (.done false)) := by
  have hq {s s' : Shared} {pc pc' : RPc} (h : RAct twoRanges 0x80003100 0x80003108 s pc s' pc') :
      QuietStep twoRanges (regionCall s pc) (regionCall s' pc') :=
    quietStep_region twoRanges h (by decide)
  have hv : ¬Valid raceStart 0 := by decide
  have hplace : bytes twoRanges ⟨0x80003100,0x80003104,0⟩ = some (.mem1,0x3100) := rfl
  have hbyte (pos : ℕ) (hash : BitVec 64) (hp : pos < 4) :
      QuietStep twoRanges (regionCall raceStart (.check 0 (.hash 0 pos hash)))
        (regionCall raceStart (.check 0 (.hash 0 (pos + 1) (hashByte hash 0)))) :=
    hq (.step (.byte rfl hplace hp))
  refine .head ⟨hq (.nonzero (by decide)),hv⟩ ?_
  have hfound : NativeTable.search twoRanges.table.ranges 0x80003100 = some 0 := rfl
  refine .head ⟨hq (.found hfound),hv⟩ ?_
  refine .head ⟨hq (.check rfl (by decide)),hv⟩ ?_
  refine .head ⟨hq (.step .load),hv⟩ ?_
  refine .head ⟨hbyte 0 hashBasis (by decide),hv⟩ ?_
  refine .head ⟨hbyte 1 _ (by decide),hv⟩ ?_
  refine .head ⟨hbyte 2 _ (by decide),hv⟩ ?_
  refine .head ⟨hbyte 3 _ (by decide),hv⟩ ?_
  refine .head ⟨hq (.step (.hashed rfl hplace rfl)),hv⟩ ?_
  have hpublish : VAct twoRanges 0 raceStart (.swap 0 false) firstChanged (.done false) :=
    .publish rfl
  refine .head (b := regionCall firstChanged (.check 0 (.done false)))
    ⟨hq (.step hpublish),by decide⟩ ?_
  exact .single ⟨hq .fail,by decide⟩

theorem region_available_safe_call :
    (regionCall firstChanged (.done false)).ops[0]? ≠
        some (.region 0x80003100 0x80003108 (.done true)) ∧
      firstChanged.unavailable ≠ 0 := by
  have hnew : QuietStep twoRanges (initial twoRanges fun _ _ => 0) (regionCall raceStart .read) :=
    ⟨.new (.region _ _),fun _ _ _ _ hop => (by cases hop),by unfold Few; decide⟩
  exact region_available_safe twoRanges _ _ _ 0 0 _ _ _ (.single hnew) rfl rfl
    ⟨by decide,by decide⟩ (by decide) (by decide) regionCall_returns

theorem step_validate {s s' : Shared} {ops : List Op} {k e : ℕ} {pc pc' : VPc}
    (hk : ops[k]? = some (.validate e pc)) (h : VAct M e s pc s' pc') :
    Step (system M) ⟨s,ops⟩ ⟨s',ops.set k (.validate e pc')⟩ := .act hk (.validate h)

theorem step_invalidate {s s' : Shared} {ops : List Op} {k : ℕ} {endAddr : BitVec 32} {pc pc' : IPc}
    (hk : ops[k]? = some (.invalidate endAddr pc)) (h : IAct M endAddr s pc s' pc') :
    Step (system M) ⟨s,ops⟩ ⟨s',ops.set k (.invalidate endAddr pc')⟩ := .act hk (.invalidate h)

/-- A validator that nothing disturbs hashes its range. -/
theorem hash_runs {s : Shared} {ops : List Op} {k e : ℕ} {range : NativeRange} {place : Memory × ℕ}
    (hr : M.table.ranges[e]? = some range) (hb : bytes M range = some place) (w : BitVec 32) (n : ℕ)
    (hn : n ≤ (size range).toNat) (hk : ops[k]? = some (.validate e (.hash w 0 hashBasis))) :
    Run (system M) ⟨s,ops⟩
      ⟨s,ops.set k (.validate e (.hash w n (hashPrefix (s.mem place.1) place.2 n)))⟩ := by
  induction n with
  | zero =>
    obtain ⟨hlt,hget⟩ := List.getElem?_eq_some_iff.1 hk
    have hset : ops.set k (.validate e (.hash w 0 hashBasis)) = ops := by
      rw [← hget]
      exact List.set_getElem_self hlt
    show Run (system M) ⟨s,ops⟩ ⟨s,ops.set k (.validate e (.hash w 0 hashBasis))⟩
    rw [hset]
  | succ n ih =>
    have hact : VAct M e s (.hash w n (hashPrefix (s.mem place.1) place.2 n)) s
        (.hash w (n + 1) (hashPrefix (s.mem place.1) place.2 (n + 1))) :=
      .byte hr hb (Nat.lt_of_succ_le hn)
    have hstep := step_validate M (get_set_self hk) hact
    rw [List.set_set] at hstep
    exact (ih (Nat.le_of_succ_le hn)).tail hstep

theorem validate_runs {s : Shared} {ops : List Op} {k e : ℕ} (hd : status (s.state e) = dirty)
    (hm : Matches M s e) (hk : ops[k]? = some (.validate e .load)) :
    Run (system M) ⟨s,ops⟩
      ⟨{ s.setState e (published (s.state e) true) with unavailable := s.unavailable - 1 },
        ops.set k (.validate e (.done true))⟩ := by
  obtain ⟨range,place,hr,hb,hh⟩ := hm
  have hload : afterLoad M e (s.state e) = .hash (s.state e) 0 hashBasis := by
    rw [afterLoad,hd,if_neg (by decide),if_neg (by decide),hr,Option.bind_some,hb]
  have hact1 : VAct M e s .load s (.hash (s.state e) 0 hashBasis) := hload ▸ .load
  have hact3 : VAct M e s (.hash (s.state e) (size range).toNat range.hash) s
      (.swap (s.state e) true) := by
    have h : VAct M e s (.hash (s.state e) (size range).toNat range.hash) s
        (.swap (s.state e) (range.hash == range.hash)) := .hashed hr hb rfl
    rwa [beq_self_eq_true] at h
  have hact4 : VAct M e s (.swap (s.state e) true)
      (s.setState e (published (s.state e) true)) .count := .publish rfl
  have h1 := step_validate M hk hact1
  have hk1 : (ops.set k (.validate e (.hash (s.state e) 0 hashBasis)))[k]? =
      some (.validate e (.hash (s.state e) 0 hashBasis)) := get_set_self hk
  have h2 := hash_runs M (s := s) hr hb (s.state e) _ (Nat.le_refl _) hk1
  rw [List.set_set,hh] at h2
  have h3 := step_validate M (get_set_self hk) hact3
  have h4 := step_validate M (get_set_self hk) hact4
  have hact5 : VAct M e (s.setState e (published (s.state e) true)) .count
      { s.setState e (published (s.state e) true) with unavailable := s.unavailable - 1 }
      (.done true) := .count
  have h5 := step_validate M (get_set_self hk) hact5
  rw [List.set_set] at h3 h4 h5
  exact ((((Relation.ReflTransGen.single h1).trans h2).tail h3).tail h4).tail h5

/-- The shared state after a validation of the second range. -/
def validated (s : Shared) : Shared :=
  { s.setState 1 (published (s.state 1) true) with unavailable := s.unavailable - 1 }

/-- The second range has been valid and is dirty again; nothing has counted that. -/
def raceEnded : Shared :=
  (validated raceStart).setState 1 (invalidated ((validated raceStart).state 1))

def raceOps : List Op :=
  [.validate 1 (.done true),.invalidate 0x80003108 (.count 1),.validate 1 (.done true)]

theorem matches_second (s : Shared) (h : s.mem = fun _ _ => 0) : Matches twoRanges s 1 :=
  ⟨⟨0x80003104,0x80003108,0x4D25767F9DCE13F5⟩,(.mem1,0x3104),rfl,rfl,by rw [h]; decide⟩

theorem race_runs :
    Run (system twoRanges) (initial twoRanges fun _ _ => 0) ⟨validated raceEnded,raceOps⟩ := by
  have h1 : Step (system twoRanges) (initial twoRanges fun _ _ => 0)
      ⟨raceStart,[.validate 1 .load]⟩ := .new (.validate (by decide))
  have h2 : Run (system twoRanges) ⟨raceStart,[.validate 1 .load]⟩
      ⟨validated raceStart,[.validate 1 (.done true)]⟩ :=
    validate_runs twoRanges (k := 0) rfl (matches_second _ rfl) rfl
  have h3 : Step (system twoRanges) ⟨validated raceStart,[.validate 1 (.done true)]⟩
      ⟨validated raceStart,[.validate 1 (.done true),.invalidate 0x80003108 (.scan 1)]⟩ :=
    .new (.invalidate 0x80003104 4)
  have h4 : Step (system twoRanges)
      ⟨validated raceStart,[.validate 1 (.done true),.invalidate 0x80003108 (.scan 1)]⟩
      ⟨validated raceStart,[.validate 1 (.done true),
        .invalidate 0x80003108 (.swap 1 ((validated raceStart).state 1))]⟩ :=
    step_invalidate twoRanges (k := 1) rfl (.load rfl (by decide))
  have h5 : Step (system twoRanges)
      ⟨validated raceStart,[.validate 1 (.done true),
        .invalidate 0x80003108 (.swap 1 ((validated raceStart).state 1))]⟩
      ⟨raceEnded,[.validate 1 (.done true),.invalidate 0x80003108 (.count 1)]⟩ :=
    step_invalidate twoRanges (k := 1) rfl (.swap rfl)
  have h6 : Step (system twoRanges)
      ⟨raceEnded,[.validate 1 (.done true),.invalidate 0x80003108 (.count 1)]⟩
      ⟨raceEnded,[.validate 1 (.done true),.invalidate 0x80003108 (.count 1),.validate 1 .load]⟩ :=
    .new (.validate (by decide))
  have h7 : Run (system twoRanges)
      ⟨raceEnded,[.validate 1 (.done true),.invalidate 0x80003108 (.count 1),.validate 1 .load]⟩
      ⟨validated raceEnded,raceOps⟩ :=
    validate_runs twoRanges (k := 2) rfl (matches_second _ rfl) rfl
  exact (((((Relation.ReflTransGen.single h1).trans h2).tail h3).tail h4).tail h5).tail h6 |>.trans h7

/-- The second range is validated, invalidated, and validated again before the
invalidation is counted: the counter is zero and the first range is still dirty. -/
theorem region_available_race : ¬RegionSafe twoRanges (Step (system twoRanges)) := by
  intro h
  have hnew : Step (system twoRanges) ⟨validated raceEnded,raceOps⟩
      ⟨validated raceEnded,raceOps ++ [.region 0x80003100 0x80003104 .read]⟩ := .new (.region _ _)
  have hread : Step (system twoRanges)
      ⟨validated raceEnded,raceOps ++ [.region 0x80003100 0x80003104 .read]⟩
      ⟨validated raceEnded,raceOps ++ [.region 0x80003100 0x80003104 (.done true)]⟩ :=
    .act (k := 3) rfl (.region (.zero rfl))
  have hv : ¬Valid (validated raceEnded) 0 := by decide
  exact (h _ _ _ 3 0 _ _ _ (race_runs.tail hnew) rfl rfl
    ⟨by decide,by decide⟩ (by decide) hv
    (.single ⟨hread,hv⟩)).1 rfl

end Validation

end DolRecomp
