import DolRecomp.FstExtraction
import Mathlib.Data.List.GetD

/-!
# Where the files of a table go

The names of a table are sanitised, and a path grows by one name at a time. A join that does not fit
the buffer is cut, so that what is left of the last name is to be looked at again.
-/

namespace DolRecomp

namespace Disc

/-- A name that stays in its directory. -/
structure Component (c : CString) : Prop where
  ne_nil : c ≠ []
  ne_dot : c ≠ [dot]
  ne_dots : c ≠ [dot,dot]
  plain : ∀ b ∈ c, ¬IsSeparator b

def joined (a b : CString) : CString := a ++ separator a ++ b

/-- The directory followed by components. -/
def Below (dir path : CString) : Prop :=
  ∃ comps : List CString, (∀ c ∈ comps, Component c) ∧ path = comps.foldl joined dir

/-- A path below a directory, or one of the directories on the way to it. -/
def Inside (dir path : CString) : Prop := Below dir path ∨ path <+: dir

/-- What a cut leaves of the second part of a join is not empty, and is no dot and no two dots. A
path that fills the buffer is left as it is. -/
def Fits (a b : CString) : Prop :=
  a.length < maxPathBuf - 1 →
    let kept := b.take (maxPathBuf - 1 - (a ++ separator a).length)
    kept ≠ [] ∧ kept ≠ [dot] ∧ kept ≠ [dot,dot]

theorem component_sanitize (name : CString) :
    Component (sanitizeComponent 256 name) ∧ (sanitizeComponent 256 name).length ≤ 255 := by
  have hunder : Component [underscore] := ⟨by decide,by decide,by decide,by decide⟩
  let clean : BitVec 8 → BitVec 8 := fun c => if keptByte c then c else underscore
  have hplain : ∀ c, ¬IsSeparator (clean c) := fun c hsep => by
    by_cases hk : keptByte c = true
    · rw [show clean c = c from if_pos hk] at hsep
      rcases hsep with rfl | rfl <;> exact absurd hk (by decide)
    · rw [show clean c = underscore from if_neg hk] at hsep
      exact absurd hsep (by decide)
  have hdot : ∀ c, clean c = dot → c = dot := fun c hc => by
    by_cases hk : keptByte c = true
    · exact (show clean c = c from if_pos hk) ▸ hc
    · exact absurd ((show clean c = underscore from if_neg hk) ▸ hc) (by decide)
  unfold sanitizeComponent
  split
  next => exact ⟨hunder,by decide⟩
  next hname =>
    simp only [not_or] at hname
    dsimp only
    split
    next => exact ⟨hunder,by decide⟩
    next hne =>
      have hshort : ∀ l : CString, l.length < 255 → truncated 256 (name.map clean) = l →
          name.map clean = l := fun l hl heq => by
        have hlen := congrArg List.length heq
        rw [truncated,List.length_take] at hlen
        rwa [truncated,List.take_of_length_le (by omega)] at heq
      refine ⟨⟨hne,fun heq => ?_,fun heq => ?_,fun b hb => ?_⟩,?_⟩
      · obtain ⟨c,hc,hdc⟩ := List.map_eq_singleton_iff.mp (hshort _ (by decide) heq)
        exact hname.1 (by rw [hc,hdot c hdc])
      · obtain ⟨c,l,hc,hdc,hl⟩ := List.map_eq_cons_iff.mp (hshort _ (by decide) heq)
        obtain ⟨c',hc',hdc'⟩ := List.map_eq_singleton_iff.mp hl
        exact hname.2.1 (by rw [hc,hc',hdot c hdc,hdot c' hdc'])
      · obtain ⟨c,-,rfl⟩ := List.mem_map.mp (List.mem_of_mem_take hb)
        exact hplain c
      · rw [truncated,List.length_take]
        omega

theorem component_name {fst : CString} {entries : List FstEntry}
    (hparse : parseFstEntries fst = some entries) {i : ℕ} (hi : i < entries.length) :
    Component (entryAt entries i).name ∧ (entryAt entries i).name.length ≤ 255 := by
  unfold parseFstEntries at hparse
  split at hparse
  next => cases hparse
  next =>
    dsimp only at hparse
    split at hparse
    next => cases hparse
    next =>
      have hall := forall₂_of_mapM hparse
      have hlen := hall.length_eq
      have hentry := (List.forall₂_iff_get.mp hall).2 i (by rwa [hlen]) hi
      rw [show entryAt entries i = entries.get ⟨i,hi⟩ from (List.getElem_eq_getD default).symm]
      unfold parseFstEntry at hentry
      dsimp only at hentry
      split at hentry
      next => cases hentry
      next =>
        rw [← Option.some.inj hentry]
        exact component_sanitize _

theorem separator_length (a : CString) : (separator a).length ≤ 1 := by
  unfold separator
  split
  next => decide
  next c _ => split <;> decide

/-- In front of what is joined to a path is a separator, unless the path is empty. -/
theorem last_separator (a : CString) :
    a ++ separator a = [] ∨ ∃ l c, IsSeparator c ∧ a ++ separator a = l ++ [c] := by
  rcases List.eq_nil_or_concat a with rfl | ⟨l,c,rfl⟩
  · exact .inl rfl
  · refine .inr ?_
    have hlast : (l.concat c).getLast? = some c := by simp
    unfold separator
    rw [hlast]
    by_cases hc : IsSeparator c
    · exact ⟨l,c,hc,by simp [hc]⟩
    · exact ⟨l.concat c,slash,.inl rfl,by simp [hc]⟩

theorem prefix_foldl_joined (dir : CString) (comps : List CString) :
    dir <+: comps.foldl joined dir := by
  induction comps generalizing dir with
  | nil => exact List.prefix_rfl
  | cons c comps ih =>
    refine List.IsPrefix.trans ?_ (ih (joined dir c))
    exact ⟨separator dir ++ c,(List.append_assoc _ _ _).symm⟩

theorem below_refl (dir : CString) : Below dir dir :=
  ⟨[],fun _ hc => absurd hc List.not_mem_nil,rfl⟩

theorem Below.dir_prefix {dir path : CString} (h : Below dir path) : dir <+: path := by
  obtain ⟨comps,-,rfl⟩ := h
  exact prefix_foldl_joined dir comps

theorem Below.joined {dir path c : CString} (h : Below dir path) (hc : Component c) :
    Below dir (joined path c) := by
  obtain ⟨comps,hcomps,rfl⟩ := h
  refine ⟨comps ++ [c],fun d hd => ?_,?_⟩
  · rcases List.mem_append.mp hd with hd | hd
    · exact hcomps d hd
    · rw [List.mem_singleton.mp hd]
      exact hc
  · rw [List.foldl_append]
    rfl

/-- A path below a directory that is longer than it ends in a component. -/
theorem Below.last {dir path : CString} (h : Below dir path) (hlen : dir.length < path.length) :
    ∃ p c, Below dir p ∧ Component c ∧ path = Disc.joined p c := by
  obtain ⟨comps,hcomps,rfl⟩ := h
  rcases List.eq_nil_or_concat comps with rfl | ⟨cs,c,rfl⟩
  · exact absurd hlen (lt_irrefl _)
  · rw [List.concat_eq_append] at hcomps ⊢
    refine ⟨cs.foldl Disc.joined dir,c,⟨cs,fun d hd => ?_,rfl⟩,hcomps c (by simp),?_⟩
    · exact hcomps d (List.mem_append_left _ hd)
    · rw [List.foldl_append]
      rfl

theorem component_take {c : CString} (hc : Component c) {n : ℕ} (hnil : c.take n ≠ [])
    (hdot : c.take n ≠ [dot]) (hdots : c.take n ≠ [dot,dot]) : Component (c.take n) :=
  ⟨hnil,hdot,hdots,fun b hb => hc.plain b (List.mem_of_mem_take hb)⟩

theorem joinPath_some {a b q : CString} (hq : joinPath maxPathBuf a b = some q) :
    q = (joined a b).take (maxPathBuf - 1) ∧ q.length < maxPathBuf := by
  unfold joinPath at hq
  dsimp only at hq
  split at hq
  next h =>
    cases hq
    exact ⟨rfl,h.2.2⟩
  next => cases hq

theorem take_joined {a b : CString} (ha : a.length < maxPathBuf - 1) :
    (joined a b).take (maxPathBuf - 1) =
      a ++ separator a ++ b.take (maxPathBuf - 1 - (a ++ separator a).length) := by
  have hlen : (a ++ separator a).length ≤ maxPathBuf - 1 := by
    have := separator_length a
    rw [List.length_append]
    omega
  rw [joined,List.take_append,List.take_of_length_le hlen]

theorem take_full {a b : CString} (ha : a.length = maxPathBuf - 1) :
    (joined a b).take (maxPathBuf - 1) = a := by
  rw [joined,List.append_assoc,← ha,List.take_left]

theorem joinPath_component {a b : CString} (ha : a.length < maxPathBuf) (hb : Component b)
    (hshort : b.length ≤ 255) : ∃ q, joinPath maxPathBuf a b = some q := by
  have hpos := List.length_pos_iff.mpr hb.ne_nil
  have hsep := separator_length a
  have hbuf : maxPathBuf = 4096 := rfl
  refine ⟨_,if_pos ⟨?_,?_,?_⟩⟩
  · rw [List.length_append]
    omega
  · rw [List.length_append,List.length_append]
    omega
  · rw [truncated,List.length_take]
    omega

theorem joinPath_ne_nil {a b q : CString} (hb : Component b)
    (hq : joinPath maxPathBuf a b = some q) : q ≠ [] := by
  have hpos := List.length_pos_iff.mpr hb.ne_nil
  rw [(joinPath_some hq).1,← List.length_pos_iff,List.length_take,joined,List.length_append]
  exact Nat.lt_min.mpr ⟨by decide,by omega⟩

section

variable {dir a b q : CString} (ha : Below dir a) (hlen : a.length < maxPathBuf)
  (hb : Component b) (hq : joinPath maxPathBuf a b = some q)

include ha hlen hb hq

theorem below_of_fits (hfits : Fits a b) : Below dir q := by
  rw [(joinPath_some hq).1]
  by_cases hroom : a.length < maxPathBuf - 1
  · obtain ⟨hnil,hdot,hdots⟩ := hfits hroom
    rw [take_joined hroom]
    exact ha.joined (component_take hb hnil hdot hdots)
  · rw [take_full (by omega)]
    exact ha

/-- A join that is cut in the wrong place leads out of the directory. -/
theorem fits_of_inside (hin : Inside dir q) : Fits a b := by
  intro hroom
  have hpre := ha.dir_prefix.length_le
  have hqeq := (joinPath_some hq).1
  rw [take_joined hroom] at hqeq
  generalize hkept : b.take (maxPathBuf - 1 - (a ++ separator a).length) = kept at hqeq
  dsimp only
  have hsep := separator_length a
  have hlong : dir.length < q.length := by
    rw [hqeq,List.length_append,List.length_append]
    by_cases hnil : kept = []
    · have hblen := List.length_pos_iff.mpr hb.ne_nil
      have hzero := congrArg List.length (hkept.trans hnil)
      rw [List.length_take,List.length_append,List.length_nil] at hzero
      omega
    · have := List.length_pos_iff.mpr hnil
      omega
  have hbelow : Below dir q := hin.elim id fun hno => absurd hno.length_le (by omega)
  obtain ⟨p,c,-,hc,hpc⟩ := hbelow.last hlong
  have hsuffix : c <:+ a ++ separator a ++ kept := ⟨p ++ separator p,by rw [← hqeq,hpc]; rfl⟩
  -- the last component does not reach past the separator in front of what is kept
  have hle : c.length ≤ kept.length := by
    by_contra hno
    rcases last_separator a with hnil | ⟨l,s,hs,hl⟩
    · rw [hnil] at hsuffix
      exact hno hsuffix.length_le
    · rw [hl,List.append_assoc] at hsuffix
      have hshort : s :: kept <:+ c := List.suffix_of_suffix_length_le
        (List.suffix_append l (s :: kept)) hsuffix (by rw [List.length_cons]; omega)
      exact hc.plain s (hshort.subset List.mem_cons_self) hs
  have hsub : c <:+ kept := List.suffix_of_suffix_length_le hsuffix (List.suffix_append _ _) hle
  refine ⟨fun hnil => ?_,fun hdot => ?_,fun hdots => ?_⟩
  · rw [hnil] at hsub
    exact hc.ne_nil (List.suffix_nil.mp hsub)
  · rw [hdot] at hsub
    rcases List.suffix_cons_iff.mp hsub with heq | hsub
    · exact hc.ne_dot heq
    · exact hc.ne_nil (List.suffix_nil.mp hsub)
  · rw [hdots] at hsub
    rcases List.suffix_cons_iff.mp hsub with heq | hsub
    · exact hc.ne_dots heq
    rcases List.suffix_cons_iff.mp hsub with heq | hsub
    · exact hc.ne_dot heq
    · exact hc.ne_nil (List.suffix_nil.mp hsub)

end

/-- A path that is cut at a separator is one of the directories on the way to it. -/
theorem inside_take {dir path : CString} (h : Below dir path) {i : ℕ} (hi : i < path.length)
    (hsep : IsSeparator (path.getD i 0)) : Inside dir (path.take i) := by
  obtain ⟨comps,hcomps,rfl⟩ := h
  induction comps using List.reverseRecOn with
  | nil => exact .inr (List.take_prefix i dir)
  | append_singleton cs c ih =>
    have hcs : ∀ d ∈ cs, Component d := fun d hd => hcomps d (List.mem_append_left _ hd)
    have hc := hcomps c (List.mem_append_right _ List.mem_cons_self)
    rw [List.foldl_append] at hi hsep ⊢
    generalize hp : cs.foldl joined dir = p at hi hsep ih ⊢
    change i < (p ++ separator p ++ c).length at hi
    change IsSeparator ((p ++ separator p ++ c).getD i 0) at hsep
    change Inside dir ((p ++ separator p ++ c).take i)
    by_cases hlt : i < p.length
    · rw [List.append_assoc,List.getD_append _ _ _ _ hlt] at hsep
      rw [List.append_assoc,List.take_append_of_le_length hlt.le]
      exact ih hcs hlt hsep
    · by_cases heq : i = p.length
      · rw [heq,List.append_assoc,List.take_left]
        exact .inl ⟨cs,hcs,hp.symm⟩
      · have hle : (p ++ separator p).length ≤ i := by
          have := separator_length p
          rw [List.length_append]
          omega
        rw [List.getD_append_right _ _ _ _ hle] at hsep
        rw [List.length_append] at hi
        rw [List.getD_eq_getElem?_getD,List.getElem?_eq_getElem (by omega)] at hsep
        exact absurd hsep (hc.plain _ (List.getElem_mem _))

def Event.path : Event → Option CString
  | .made p | .opened p => some p
  | _ => none

def AllInside (dir : CString) (es : List Event) : Prop :=
  ∀ e ∈ es, ∀ path, e.path = some path → Inside dir path

def AllFit (es : List Event) : Prop := ∀ a b, .joined a b ∈ es → Fits a b

theorem allInside_append {dir : CString} {es es' : List Event} :
    AllInside dir (es ++ es') ↔ AllInside dir es ∧ AllInside dir es' := by
  unfold AllInside
  simp only [List.mem_append,or_imp,forall_and]

theorem allFit_append {es es' : List Event} : AllFit (es ++ es') ↔ AllFit es ∧ AllFit es' := by
  unfold AllFit
  simp only [List.mem_append,or_imp,forall_and]

def Host.Willing {σ : Type} (h : Host σ) : Prop := ∀ p s, (h.makeDir p s).1 = true

/-- The events of a part of the walk that works under a path: the paths are inside if the joins
fit, and only then if the host makes every directory. -/
def Kept {σ : Type} (h : Host σ) (dir path : CString) (es : List Event) : Prop :=
  Below dir path → (AllFit es → AllInside dir es) ∧ (h.Willing → AllInside dir es → AllFit es)

section

variable {σ : Type} (h : Host σ) (entries : List FstEntry) {dir : CString}

variable {h} in
theorem kept_append {path : CString} {es es' : List Event} (hes : Kept h dir path es)
    (hes' : Kept h dir path es') : Kept h dir path (es ++ es') := by
  intro hbelow
  rw [allFit_append,allInside_append]
  exact ⟨fun hfit => ⟨(hes hbelow).1 hfit.1,(hes' hbelow).1 hfit.2⟩,
    fun hw hin => ⟨(hes hbelow).2 hw hin.1,(hes' hbelow).2 hw hin.2⟩⟩

variable {h} in
theorem kept_of_not_joined {path : CString} {es : List Event} (hno : ∀ a b, .joined a b ∉ es)
    (hin : Below dir path → AllInside dir es) : Kept h dir path es :=
  fun hbelow => ⟨fun _ => hin hbelow,fun _ _ a b hab => absurd hab (hno a b)⟩

variable {h} in
theorem kept_join {a b q : CString} {es : List Event} (hlen : a.length < maxPathBuf)
    (hb : Component b) (hq : joinPath maxPathBuf a b = some q) (hes : Kept h dir q es)
    (hused : h.Willing → ∃ e ∈ es, e.path = some q) : Kept h dir a (.joined a b :: es) := by
  refine fun hbelow => ⟨fun hfit e he path hp => ?_,fun hw hin => ?_⟩
  · have hfits := hfit a b List.mem_cons_self
    have hq := below_of_fits hbelow hlen hb hq hfits
    rcases List.mem_cons.mp he with rfl | he
    · cases hp
    · exact (hes hq).1 (fun a b hab => hfit a b (List.mem_cons_of_mem _ hab)) e he path hp
  · have hrest : AllInside dir es := fun e he => hin e (List.mem_cons_of_mem _ he)
    obtain ⟨e,he,hpath⟩ := hused hw
    have hfits := fits_of_inside hbelow hlen hb hq (hrest e he q hpath)
    have hq := below_of_fits hbelow hlen hb hq hfits
    intro a' b' hab
    rcases List.mem_cons.mp hab with hab | hab
    · cases hab
      exact hfits
    · exact (hes hq).2 hw hrest a' b' hab

variable (dir)

theorem makeParents_events (path : CString) (is : List ℕ) (his : ∀ i ∈ is, i < path.length)
    (x : Extraction σ) : ∃ es, (makeParents h path is x).2.events = x.events ++ es ∧
      (∀ a b, .joined a b ∉ es) ∧ (Below dir path → AllInside dir es) ∧
      (h.Willing → (makeParents h path is x).1 = true) := by
  induction is generalizing x with
  | nil => exact ⟨[],(List.append_nil _).symm,nofun,fun _ _ he => absurd he List.not_mem_nil,fun _ => rfl⟩
  | cons i is ih =>
    have hrest := fun j hj => his j (List.mem_cons_of_mem _ hj)
    rw [makeParents]
    split
    next hsep =>
      have hone : ∀ ok x', makeDirOne h (path.take i) x = (ok,x') →
          ok = (h.makeDir (path.take i) x.host).1 ∧
            x'.events = x.events ++ [.made (path.take i)] := fun ok x' heq => by
        cases heq
        exact ⟨rfl,rfl⟩
      have hinside : Below dir path → AllInside dir [.made (path.take i)] := fun hbelow e he p hp => by
        rw [List.mem_singleton.mp he] at hp
        cases hp
        exact inside_take hbelow (his i List.mem_cons_self) hsep.1
      split
      next x' heq =>
        obtain ⟨es,hes,hno,hin,hok⟩ := ih hrest x'
        refine ⟨.made (path.take i) :: es,?_,?_,?_,hok⟩
        · rw [hes,(hone _ _ heq).2,List.append_assoc]
          rfl
        · rintro a b hab
          rcases List.mem_cons.mp hab with hab | hab
          · cases hab
          · exact hno a b hab
        · intro hbelow
          show AllInside dir ([.made (path.take i)] ++ es)
          exact allInside_append.mpr ⟨hinside hbelow,hin hbelow⟩
      next x' heq =>
        refine ⟨[.made (path.take i)],(hone _ _ heq).2,?_,hinside,fun hwilling => ?_⟩
        · rintro a b hab
          cases List.mem_singleton.mp hab
        · exact absurd ((hone _ _ heq).1.trans (hwilling _ _)) (by decide)
    next hsep => exact ih hrest x

theorem makeDirTree_events (path : CString) (hpath : path ≠ [] ∧ path.length < maxPathBuf)
    (x : Extraction σ) : ∃ es, (makeDirTree h path x).2.events = x.events ++ es ∧
      Kept h dir path es ∧ (h.Willing → ∃ e ∈ es, e.path = some path) := by
  have hlen := List.length_pos_iff.mpr hpath.1
  obtain ⟨es,hes,hno,hin,hok⟩ := makeParents_events h dir path (List.range path.length)
    (fun i hi => List.mem_range.mp hi) x
  rw [makeDirTree,if_neg (by omega)]
  split
  next x' heq =>
    rw [heq] at hes
    refine ⟨es ++ [.made path],?_,kept_append (kept_of_not_joined hno hin) ?_,
      fun _ => ⟨.made path,by simp,rfl⟩⟩
    · show x'.events ++ [.made path] = _
      rw [show x'.events = _ from hes,List.append_assoc]
    · refine kept_of_not_joined (fun a b hab => ?_) fun hbelow e he p hp => ?_
      · cases List.mem_singleton.mp hab
      · rw [List.mem_singleton.mp he] at hp
        cases hp
        exact .inl hbelow
  next x' heq =>
    rw [heq] at hes hok
    exact ⟨es,hes,kept_of_not_joined hno hin,fun hw => absurd (hok hw) Bool.false_ne_true⟩

theorem writeRange_events (i : ℕ) (offset size : BitVec 32) (path : CString) (x : Extraction σ) :
    ∃ es, (writeRange h i offset size path x).2.events = x.events ++ es ∧ Kept h dir path es ∧
      ∃ e ∈ es, e.path = some path := by
  have hopened : Kept h dir path [.opened path] :=
    kept_of_not_joined (fun a b hab => nomatch List.mem_singleton.mp hab) fun hbelow e he p hp => by
      rw [List.mem_singleton.mp he] at hp
      cases hp
      exact .inl hbelow
  unfold writeRange
  rcases h.openFile path x.host with ⟨opened,host⟩
  rcases hcopy : copyRange h size.toNat offset.toNat size.toNat host with ⟨copied,chunks,host₁⟩
  rcases hclose : h.close host₁ with ⟨closed,host₂⟩
  simp only [Extraction.log,hcopy,hclose]
  split
  next =>
    split
    next =>
      refine ⟨[.opened path] ++ [.written ⟨i,path,chunks⟩],List.append_assoc _ _ _,
        kept_append hopened (kept_of_not_joined (fun a b hab => ?_) fun _ e he p hp => ?_),
        .opened path,List.mem_cons_self,rfl⟩
      · cases List.mem_singleton.mp hab
      · rw [List.mem_singleton.mp he] at hp
        cases hp
    next => exact ⟨_,rfl,hopened,.opened path,List.mem_cons_self,rfl⟩
  next => exact ⟨_,rfl,hopened,.opened path,List.mem_cons_self,rfl⟩

def Walk.state : Walk σ → Option (Extraction σ)
  | .outOfFuel => none
  | .failed x => some x
  | .done _ x => some x

variable {entries}

theorem kept_run {fst : CString} (hparse : parseFstEntries fst = some entries) (fuel : ℕ) :
    (∀ d p x x', p.length < maxPathBuf → (extractFstDir h entries fuel d p x).state = some x' →
      ∃ es, x'.events = x.events ++ es ∧ Kept h dir p es) ∧
    ∀ i stop p x x', stop ≤ entries.length → p.length < maxPathBuf →
      (extractLoop h entries fuel i stop p x).state = some x' →
      ∃ es, x'.events = x.events ++ es ∧ Kept h dir p es := by
  have hnil : ∀ p, Kept h dir p [] := fun p =>
    kept_of_not_joined nofun fun _ e he => absurd he List.not_mem_nil
  induction fuel with
  | zero =>
    refine ⟨fun d p x x' _ hrun => ?_,fun i stop p x x' _ _ hrun => ?_⟩
    · cases hrun
    · cases hrun
  | succ fuel ih =>
    refine ⟨fun d p x x' hp hrun => ?_,fun i stop p x x' hstop hp hrun => ?_⟩
    · rw [extractFstDir] at hrun
      split at hrun
      next =>
        cases hrun
        exact ⟨[],(List.append_nil _).symm,hnil p⟩
      next hrange => exact ih.2 _ _ _ _ _ (by omega) hp hrun
    · rw [extractLoop] at hrun
      split at hrun
      next hi =>
        obtain ⟨hname,hshort⟩ := component_name hparse (lt_of_lt_of_le hi hstop)
        dsimp only at hrun
        generalize (entryAt entries i).name = name at hname hshort hrun
        obtain ⟨q,hjoin⟩ := joinPath_component hp hname hshort
        obtain ⟨-,hq⟩ := joinPath_some hjoin
        rw [hjoin] at hrun
        dsimp only at hrun
        split at hrun
        next hdir =>
          obtain ⟨es,hes,hkept,hused⟩ := makeDirTree_events h dir q
            ⟨joinPath_ne_nil hname hjoin,hq⟩ (x.log (.joined p name))
          have hes : (makeDirTree h q (x.log (.joined p name))).2.events =
              x.events ++ .joined p name :: es := hes.trans (List.append_assoc _ _ _)
          split at hrun
          next x₁ hmade =>
            cases hrun
            rw [hmade] at hes
            exact ⟨_,hes,kept_join hp hname hjoin hkept hused⟩
          next x₁ hmade =>
            rw [hmade] at hes
            have hused' : ∀ es' : List Event, h.Willing → ∃ e ∈ es ++ es', e.path = some q :=
              fun es' hw => by
                obtain ⟨e,he,hpath⟩ := hused hw
                exact ⟨e,List.mem_append_left _ he,hpath⟩
            split at hrun
            next after x₂ hsub =>
              obtain ⟨es₂,hes₂,hkept₂⟩ := ih.1 _ _ _ _ hq (congrArg Walk.state hsub)
              obtain ⟨es₃,hes₃,hkept₃⟩ := ih.2 _ _ _ _ _ hstop hp hrun
              refine ⟨.joined p name :: (es ++ es₂) ++ es₃,?_,kept_append
                (kept_join hp hname hjoin (kept_append hkept hkept₂) (hused' es₂)) hkept₃⟩
              rw [hes₃,hes₂,show x₁.events = _ from hes]
              simp only [List.append_assoc,List.cons_append]
            next =>
              obtain ⟨es₂,hes₂,hkept₂⟩ := ih.1 _ _ _ _ hq hrun
              refine ⟨.joined p name :: (es ++ es₂),?_,
                kept_join hp hname hjoin (kept_append hkept hkept₂) (hused' es₂)⟩
              rw [hes₂,show x₁.events = _ from hes,List.append_assoc]
              rfl
        next hdir =>
          obtain ⟨es,hes,hkept,hused⟩ := writeRange_events h dir i
            (entryAt entries i).offset (entryAt entries i).size q (x.log (.joined p name))
          have hes := hes.trans (List.append_assoc x.events [.joined p name] es)
          have hjoined := kept_join hp hname hjoin hkept fun _ => hused
          split at hrun
          next x₁ hwrite =>
            cases hrun
            rw [hwrite] at hes
            exact ⟨_,hes,hjoined⟩
          next x₁ hwrite =>
            rw [hwrite] at hes
            obtain ⟨es₃,hes₃,hkept₃⟩ := ih.2 _ _ _ _ _ hstop hp hrun
            refine ⟨.joined p name :: es ++ es₃,?_,kept_append hjoined hkept₃⟩
            rw [hes₃,show x₁.events = _ from hes,List.append_assoc]
            rfl
      next hi =>
        cases hrun
        exact ⟨[],(List.append_nil _).symm,hnil p⟩

end

/-- In a run whose joins all fit, every path that is made or opened is inside the output directory.
Where the host makes every directory, a join that does not fit leads out of it. -/
theorem paths_inside_of_fit {fst : CString} {entries : List FstEntry}
    (hparse : parseFstEntries fst = some entries) {σ : Type} (h : Host σ) {dir : CString}
    (hdir : dir.length < maxPathBuf) (s : σ) (fuel : ℕ) {x : Extraction σ}
    (hrun : (extractFstDir h entries fuel 0 dir ⟨s,[]⟩).state = some x) :
    (AllFit x.events → AllInside dir x.events) ∧
      (h.Willing → AllInside dir x.events → AllFit x.events) := by
  obtain ⟨es,hes,hkept⟩ := (kept_run h dir hparse fuel).1 0 dir _ _ hdir hrun
  rw [show x.events = es from hes]
  exact hkept (below_refl dir)

/-- A table of a root and an empty file with a name of five bytes. -/
def dottedFst (name : CString) : CString :=
  [1,0,0,0,0,0,0,0,0,0,0,2,
   0,0,0,0,0,0,0,0,0,0,0,0] ++ name ++ [0]

def dottedName : CString := [dot,dot,0x61,0x62,0x63]

def dottedEntries : List FstEntry := [⟨true,0,0,2,dottedName⟩,⟨false,0,0,0,dottedName⟩]

/-- Thirty directories and one below, whose path leaves room for a separator and two bytes. -/
def longDir : CString :=
  (List.replicate 30 (List.replicate 135 0x6F ++ [slash])).flatten ++ List.replicate 12 0x6F

theorem longDir_length : longDir.length = 4092 := by
  rw [longDir,List.length_append,List.length_flatten,List.map_replicate,List.sum_replicate,
    List.length_append,List.length_replicate,List.length_replicate]
  rfl

theorem longDir_separator : separator longDir = [slash] := by
  rw [separator,longDir,List.getLast?_append,List.getLast?_replicate,if_neg (by decide)]
  rfl

theorem longDir_run {q : CString} (hq : joinPath maxPathBuf longDir dottedName = some q) :
    extractFst willingHost dottedEntries longDir () =
      .done 2 ⟨(),[.joined longDir dottedName,.opened q,.written ⟨1,q,[]⟩]⟩ := by
  show extractFstDir willingHost dottedEntries 5 0 longDir ⟨(),[]⟩ = _
  rw [extractFstDir,if_neg (by decide),extractLoop,if_pos (by decide)]
  dsimp only
  rw [show joinPath maxPathBuf longDir (entryAt dottedEntries (0 + 1)).name = some q from hq]
  rfl

/-- A name of five bytes of which two dots are kept. -/
theorem paths_not_inside :
    ¬∀ fst entries, parseFstEntries fst = some entries → ∀ dir : CString,
      dir.length < maxPathBuf → ∀ x, (extractFst willingHost entries dir ()).state = some x →
        AllInside dir x.events := by
  intro hall
  have hparse : parseFstEntries (dottedFst dottedName) = some dottedEntries := by decide
  have hlen : longDir.length < maxPathBuf := by
    rw [longDir_length]
    decide
  have hname : Component dottedName := ⟨by decide,by decide,by decide,by decide⟩
  obtain ⟨q,hq⟩ := joinPath_component hlen hname (by decide)
  have hin := hall _ _ hparse longDir hlen _ (congrArg Walk.state (longDir_run hq))
  have hfits := fits_of_inside (below_refl longDir) hlen hname hq
    (hin (.opened q) (by simp) q rfl)
  have hroom : longDir.length < maxPathBuf - 1 := by
    rw [longDir_length]
    decide
  have htext : (longDir ++ separator longDir).length = 4093 := by
    rw [longDir_separator,@List.length_append _ longDir [slash],longDir_length]
    rfl
  have hkept := (hfits hroom).2.2
  rw [htext] at hkept
  exact hkept rfl

/-- The same table below a short path. -/
theorem paths_inside_of_fit_short :
    ∃ x, (extractFst willingHost dottedEntries outDir ()).state = some x ∧
      AllInside outDir x.events := by
  have hevents : ((extractFst willingHost dottedEntries outDir ()).state.map Extraction.events) =
      some [.joined outDir dottedName,.opened (joined outDir dottedName),
        .written ⟨1,joined outDir dottedName,[]⟩] := by decide
  obtain ⟨x,hx,hes⟩ := Option.map_eq_some_iff.mp hevents
  refine ⟨x,hx,(@paths_inside_of_fit (dottedFst dottedName) _ (by decide) Unit willingHost
    outDir (by decide) () _ _ hx).1 fun a b hab => ?_⟩
  rw [hes] at hab
  rcases List.mem_cons.mp hab with hab | hab
  · cases hab
    exact fun _ => by decide
  · rcases List.mem_cons.mp hab with hab | hab
    · cases hab
    · cases List.mem_singleton.mp hab

end Disc

end DolRecomp
