import Mathlib.Data.List.Perm.Subperm
import Mathlib.Data.List.Range
import Mathlib.Logic.Function.Basic
import Mathlib.Tactic.Common

/-!
# Closures by levels

A search that marks what it finds, queues it, and follows the edges of the queue one level after
the other. It finds what can be reached in so many steps, and queues nothing twice.
-/

namespace LevelClosure

section

variable {α : Type} (edge : α → α → Prop)

def Path : ℕ → α → α → Prop
  | 0, a, b => a = b
  | n+1, a, b => ∃ c, edge a c ∧ Path n c b

/-- Reached from a set in at most `depth` steps. -/
def Within (depth : ℕ) (set : α → Prop) (b : α) : Prop :=
  ∃ a, set a ∧ ∃ n ≤ depth, Path edge n a b

variable {edge}

theorem within_zero {set : α → Prop} {b : α} : Within edge 0 set b ↔ set b := by
  constructor
  · rintro ⟨a,ha,n,hn,hpath⟩
    obtain rfl := Nat.le_zero.mp hn
    obtain rfl : a = b := hpath
    exact ha
  · intro hb
    exact ⟨b,hb,0,Nat.le_refl _,rfl⟩

theorem within_succ {depth : ℕ} {set : α → Prop} {b : α} : Within edge (depth+1) set b ↔
    Within edge depth (fun c => set c ∨ ∃ a, set a ∧ edge a c) b := by
  constructor
  · rintro ⟨a,ha,n,hn,hpath⟩
    cases n with
    | zero => exact ⟨a,.inl ha,0,Nat.zero_le _,hpath⟩
    | succ n =>
      obtain ⟨c,hedge,hpath⟩ := hpath
      exact ⟨c,.inr ⟨a,ha,hedge⟩,n,Nat.le_of_succ_le_succ hn,hpath⟩
  · rintro ⟨c,hc | ⟨a,ha,hedge⟩,n,hn,hpath⟩
    · exact ⟨c,hc,n,Nat.le_succ_of_le hn,hpath⟩
    · exact ⟨a,ha,n+1,Nat.succ_le_succ hn,c,hedge,hpath⟩

theorem within_congr {depth : ℕ} {set set' : α → Prop} (h : ∀ a, set a ↔ set' a) {b : α} :
    Within edge depth set b ↔ Within edge depth set' b := by
  rw [funext fun a => propext (h a)]

/-- Nothing more is reached from a set that is closed. -/
theorem within_closed {set : α → Prop} (hclosed : ∀ a b, set a → edge a b → set b) (depth : ℕ)
    {b : α} : Within edge depth set b ↔ set b := by
  induction depth with
  | zero => exact within_zero
  | succ depth ih =>
    rw [within_succ,← ih]
    refine within_congr fun c => ⟨?_,.inl⟩
    rintro (hc | ⟨a,ha,hedge⟩)
    · exact hc
    · exact hclosed a c ha hedge

end

/-- The marks, and the queue of what was marked. -/
structure Marks (α : Type) where
  selected : α → Bool
  queue : List α

section

variable {α ε : Type} [DecidableEq α]

def Marks.add (m : Marks α) (a : α) : Marks α :=
  if m.selected a then m else ⟨Function.update m.selected a true,m.queue ++ [a]⟩

def Marks.addAll (m : Marks α) (items : List α) : Marks α := items.foldl Marks.add m

abbrev Outcome (ε α : Type) := Except (ε × Marks α) (Marks α)

def Outcome.last : Outcome ε α → Marks α
  | .ok m => m
  | .error (_,m) => m

section

variable (next : α → Except ε (List α))

def expand : Marks α → List α → Outcome ε α
  | m, [] => .ok m
  | m, a :: level =>
    match next a with
    | .ok items => expand (m.addAll items) level
    | .error e => .error (e,m)

/-- The levels of the queue from position `first` on. -/
def levels : ℕ → ℕ → Marks α → Outcome ε α
  | 0, _, m => .ok m
  | depth+1, first, m =>
    if first < m.queue.length then
      match expand next m (m.queue.drop first) with
      | .ok m' => levels depth m.queue.length m'
      | .error stopped => .error stopped
    else .ok m

end

/-- Everything that is marked is in the queue once, or is one of the items still to be queued. -/
structure Good (P : α → Prop) (pending : List α) (m : Marks α) : Prop where
  nodup : (m.queue ++ pending).Nodup
  selected : ∀ a, m.selected a = true ↔ a ∈ m.queue ∨ a ∈ pending
  valid : ∀ a ∈ m.queue ++ pending, P a

variable {P : α → Prop} {pending : List α} {m : Marks α} {next : α → Except ε (List α)}
  {edge : α → α → Prop}

@[simp] theorem add_selected (a b : α) :
    (m.add a).selected b = true ↔ m.selected b = true ∨ b = a := by
  unfold Marks.add
  by_cases ha : m.selected a
  · rw [if_pos ha]
    exact ⟨.inl,fun h => h.elim id fun h => h ▸ ha⟩
  · rw [if_neg ha]
    by_cases hb : b = a
    · subst hb
      simp
    · simp [hb]

@[simp] theorem addAll_selected (items : List α) (b : α) :
    (m.addAll items).selected b = true ↔ m.selected b = true ∨ b ∈ items := by
  unfold Marks.addAll
  induction items generalizing m with
  | nil => simp
  | cons a items ih => rw [List.foldl_cons,ih,add_selected,List.mem_cons,or_assoc]

theorem Good.add (h : Good P pending m) {a : α} (ha : P a) : Good P pending (m.add a) := by
  unfold Marks.add
  by_cases hs : m.selected a
  · rw [if_pos hs]
    exact h
  · rw [if_neg hs]
    have hperm : (m.queue ++ [a] ++ pending).Perm (a :: (m.queue ++ pending)) := by
      rw [List.append_assoc]
      exact List.perm_middle
    have hnew : a ∉ m.queue ++ pending := fun hm =>
      hs ((h.selected a).mpr (List.mem_append.mp hm))
    refine ⟨hperm.nodup_iff.mpr (List.nodup_cons.mpr ⟨hnew,h.nodup⟩),fun b => ?_,fun b hb => ?_⟩
    · by_cases hb : b = a
      · subst hb
        simp
      · simp [h.selected,hb]
    · rcases List.mem_cons.mp (hperm.mem_iff.mp hb) with rfl | hb
      · exact ha
      · exact h.valid b hb

theorem Good.addAll (h : Good P pending m) {items : List α} (hitems : ∀ a ∈ items, P a) :
    Good P pending (m.addAll items) := by
  unfold Marks.addAll
  induction items generalizing m with
  | nil => exact h
  | cons a items ih =>
    exact ih (h.add (hitems a List.mem_cons_self)) fun b hb => hitems b (.tail a hb)

omit [DecidableEq α] in
/-- The next of the pending items enters the queue. -/
theorem Good.push {a : α} (h : Good P (a :: pending) m) :
    Good P pending { m with queue := m.queue ++ [a] } := by
  have heq : m.queue ++ [a] ++ pending = m.queue ++ a :: pending := by simp
  refine ⟨heq ▸ h.nodup,fun b => ?_,heq ▸ h.valid⟩
  rw [h.selected,List.mem_append,List.mem_cons,List.mem_singleton,or_assoc]

omit [DecidableEq α] in
theorem Good.mem_queue (h : Good P [] m) {a : α} : a ∈ m.queue ↔ m.selected a = true := by
  rw [h.selected]
  simp

theorem Good.length_le {n : ℕ} {m : Marks ℕ} {pending : List ℕ} (h : Good (· < n) pending m) :
    m.queue.length ≤ n := by
  have hsub : m.queue ⊆ List.range n := fun a ha =>
    List.mem_range.mpr (h.valid a (List.mem_append_left _ ha))
  have hle := ((List.nodup_append.mp h.nodup).1.subperm hsub).length_le
  rwa [List.length_range] at hle

section

variable (hnext : ∀ a items, next a = .ok items → ∀ b ∈ items, P b)

include hnext in
theorem expand_good (level : List α) (h : Good P [] m) :
    Good P [] (expand next m level).last := by
  induction level generalizing m with
  | nil => exact h
  | cons a level ih =>
    rw [expand]
    cases ha : next a with
    | ok items => exact ih (h.addAll (hnext a items ha))
    | error e => exact h

theorem addAll_queue (items : List α) : m.queue <+: (m.addAll items).queue := by
  unfold Marks.addAll
  induction items generalizing m with
  | nil => exact List.prefix_rfl
  | cons a items ih =>
    refine List.IsPrefix.trans ?_ ih
    unfold Marks.add
    split
    · exact List.prefix_rfl
    · exact List.prefix_append _ _

theorem expand_queue (level : List α) : m.queue <+: (expand next m level).last.queue := by
  induction level generalizing m with
  | nil => exact List.prefix_rfl
  | cons a level ih =>
    rw [expand]
    cases next a with
    | ok items => exact (addAll_queue items).trans ih
    | error e => exact List.prefix_rfl

include hnext in
theorem levels_good (depth first : ℕ) (h : Good P [] m) :
    Good P [] (levels next depth first m).last := by
  induction depth generalizing first m with
  | zero => exact h
  | succ depth ih =>
    rw [levels]
    split
    · have hlevel := expand_good hnext (m.queue.drop first) h
      cases hexpand : expand next m (m.queue.drop first) with
      | ok m' =>
        rw [hexpand] at hlevel
        exact ih m.queue.length hlevel
      | error stopped =>
        rw [hexpand] at hlevel
        exact hlevel
    · exact h

end

section

variable (hedge : ∀ a items, next a = .ok items → ∀ b, b ∈ items ↔ edge a b)

include hedge in
theorem expand_selected {level : List α} {m' : Marks α} (h : expand next m level = .ok m') (b : α) :
    m'.selected b = true ↔ m.selected b = true ∨ ∃ a ∈ level, edge a b := by
  induction level generalizing m with
  | nil =>
    cases h
    simp
  | cons a level ih =>
    rw [expand] at h
    cases ha : next a with
    | error e =>
      rw [ha] at h
      cases h
    | ok items =>
      rw [ha] at h
      rw [ih h,addAll_selected,List.exists_mem_cons_iff,hedge a items ha,or_assoc]

include hedge in
/-- A search that ends has found what the edges reach in `depth` steps, when what stands before
`first` in the queue has been followed before. -/
theorem levels_selected (hnext : ∀ a items, next a = .ok items → ∀ b ∈ items, P b)
    {depth first : ℕ} {m' : Marks α} (h : Good P [] m)
    (hdone : ∀ a ∈ m.queue.take first, ∀ b, edge a b → m.selected b = true)
    (hrun : levels next depth first m = .ok m') (b : α) :
    m'.selected b = true ↔ Within edge depth (fun a => m.selected a = true) b := by
  induction depth generalizing first m with
  | zero =>
    cases hrun
    rw [within_zero]
  | succ depth ih =>
    rw [levels] at hrun
    split at hrun
    next hlt =>
      cases hexpand : expand next m (m.queue.drop first) with
      | error stopped =>
        rw [hexpand] at hrun
        cases hrun
      | ok m₁ =>
        rw [hexpand] at hrun
        have hgood : Good P [] m₁ := by
          have := expand_good hnext (m.queue.drop first) h
          rwa [hexpand] at this
        obtain ⟨added,hqueue⟩ : m.queue <+: m₁.queue := by
          have : m.queue <+: (expand next m (m.queue.drop first)).last.queue := expand_queue _
          rwa [hexpand] at this
        -- what was followed before leads to nothing new
        have hlevel : ∀ c, m₁.selected c = true ↔
            m.selected c = true ∨ ∃ a, m.selected a = true ∧ edge a c := by
          intro c
          rw [expand_selected hedge hexpand]
          constructor
          · rintro (hc | ⟨a,ha,hac⟩)
            · exact .inl hc
            · exact .inr ⟨a,h.mem_queue.mp (List.mem_of_mem_drop ha),hac⟩
          · rintro (hc | ⟨a,ha,hac⟩)
            · exact .inl hc
            · have ha := h.mem_queue.mpr ha
              rw [← List.take_append_drop first m.queue,List.mem_append] at ha
              rcases ha with ha | ha
              · exact .inl (hdone a ha c hac)
              · exact .inr ⟨a,ha,hac⟩
        rw [ih hgood (fun a ha c hac => ?_) hrun,within_succ]
        · exact within_congr hlevel
        · rw [← hqueue,List.take_left' rfl] at ha
          exact (hlevel c).mpr (.inr ⟨a,h.mem_queue.mp ha,hac⟩)
    next hge =>
      cases hrun
      rw [List.take_of_length_le (Nat.le_of_not_lt hge)] at hdone
      exact (within_closed (fun a c ha => hdone a (h.mem_queue.mpr ha) c) (depth+1)).symm

end

end

end LevelClosure
