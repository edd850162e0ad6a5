import DolRecomp.DiscExtract

/-!
# What the extraction of a table writes

The table encodes a tree by the indices at which its directories end. A walk that succeeds covers
the range of each directory that it meets, and writes each file once, in its place, as long as no
directory reaches past the end of another one to a file behind it.
-/

namespace DolRecomp

namespace Disc

variable (entries : List FstEntry)

/-- The index at which a directory ends. -/
def stopOf (d : ℕ) : ℕ := (entryAt entries d).size.toNat

def IsFile (i : ℕ) : Prop := i < entries.length ∧ (entryAt entries i).isDir = false

def Contains (d i : ℕ) : Prop := (entryAt entries d).isDir = true ∧ d < i ∧ i < stopOf entries d

/-- The last directory to start among those that contain an entry. -/
def Tightest (d i : ℕ) : Prop := Contains entries d i ∧ ∀ c, Contains entries c i → c ≤ d

/-- The path of an entry in the tree: its name under the path of its directory. -/
inductive PathOf (dirPath : CString) : ℕ → CString → Prop
  | root : PathOf dirPath 0 dirPath
  | child {d i : ℕ} {p q : CString} : PathOf dirPath d p → Tightest entries d i →
      joinPath maxPathBuf p (entryAt entries i).name = some q → PathOf dirPath i q

/-- Chunks one after the other, so many bytes in all. -/
inductive Tiles : ℕ → ℕ → List (ℕ × ℕ) → Prop
  | nil (offset : ℕ) : Tiles offset 0 []
  | cons {offset chunk size : ℕ} {chunks : List (ℕ × ℕ)} : Tiles (offset + chunk) size chunks →
      Tiles offset (chunk + size) ((offset,chunk) :: chunks)

/-- The file of an entry has its bytes. -/
def Holds (w : Written) : Prop :=
  Tiles (entryAt entries w.entry).offset.toNat (entryAt entries w.entry).size.toNat w.chunks

/-- Every file was written once, with its bytes, in its directory. -/
def Exact (dirPath : CString) (written : List Written) : Prop :=
  ∀ f, IsFile entries f → ∃ w, written.filter (fun w => w.entry = f) = [w] ∧
    PathOf entries dirPath f w.path ∧ Holds entries w

/-- A directory `c` starts inside `p` and reaches past its end, to the file `f`. -/
def Straddles (p c f : ℕ) : Prop :=
  IsFile entries f ∧ Contains entries p c ∧ Contains entries c f ∧ stopOf entries p ≤ f

/-- A run of the loop that succeeds, with what it writes. -/
inductive Walked : ℕ → ℕ → CString → List Written → Prop
  | nil {i stop : ℕ} {p : CString} : stop ≤ i → Walked i stop p []
  | file {i stop : ℕ} {p q : CString} {w : Written} {ws : List Written} : i < stop →
      (entryAt entries i).isDir = false → joinPath maxPathBuf p (entryAt entries i).name = some q →
      w.entry = i → w.path = q → Holds entries w → Walked (i + 1) stop p ws →
      Walked i stop p (w :: ws)
  | dir {i stop : ℕ} {p q : CString} {ws ws' : List Written} : i < stop →
      (entryAt entries i).isDir = true → joinPath maxPathBuf p (entryAt entries i).name = some q →
      i < stopOf entries i → stopOf entries i ≤ entries.length →
      Walked (i + 1) (stopOf entries i) q ws → Walked (stopOf entries i) stop p ws' →
      Walked i stop p (ws ++ ws')

def Event.file : Event → Option Written
  | .written w => some w
  | _ => none

def Extraction.files {σ : Type} (x : Extraction σ) : List Written := x.events.filterMap Event.file

section

variable {σ : Type} (h : Host σ)

theorem files_log (x : Extraction σ) (e : Event) :
    (x.log e).files = x.files ++ e.file.toList := by
  unfold Extraction.files Extraction.log
  rw [List.filterMap_append]
  cases he : e.file with
  | none => rw [List.filterMap_cons_none he]; rfl
  | some w => rw [List.filterMap_cons_some he]; rfl

theorem files_makeDirOne (path : CString) (x : Extraction σ) :
    (makeDirOne h path x).2.files = x.files :=
  (files_log _ _).trans (List.append_nil _)

theorem files_makeParents (path : CString) (is : List ℕ) (x : Extraction σ) :
    (makeParents h path is x).2.files = x.files := by
  induction is generalizing x with
  | nil => rfl
  | cons i is ih =>
    rw [makeParents]
    split
    next hsep =>
      have hone := files_makeDirOne h (path.take i) x
      split
      next x' heq => rw [ih,← hone,heq]
      next x' heq => rw [← hone,heq]
    next hsep => exact ih x

theorem files_makeDirTree (path : CString) (x : Extraction σ) :
    (makeDirTree h path x).2.files = x.files := by
  have hparents := files_makeParents h path (List.range path.length) x
  rw [makeDirTree]
  split
  next => rfl
  next =>
    split
    next x' heq => rw [files_makeDirOne,← hparents,heq]
    next x' heq => rw [← hparents,heq]

theorem tiles_copyRange (rounds cursor remaining : ℕ) (s : σ) {chunks : List (ℕ × ℕ)} {s' : σ}
    (hrun : copyRange h rounds cursor remaining s = (true,chunks,s')) :
    Tiles cursor remaining chunks := by
  induction rounds generalizing cursor remaining s chunks with
  | zero =>
    simp only [copyRange,Prod.mk.injEq,decide_eq_true_eq] at hrun
    obtain ⟨rfl,rfl,-⟩ := hrun
    exact .nil cursor
  | succ rounds ih =>
    rw [copyRange] at hrun
    split at hrun
    next hzero =>
      obtain ⟨-,hrun⟩ := Prod.mk.inj hrun
      obtain ⟨rfl,-⟩ := Prod.mk.inj hrun
      rw [hzero]
      exact .nil cursor
    next hzero =>
      dsimp only at hrun
      split at hrun
      next => exact absurd (Prod.mk.inj hrun).1 (by decide)
      next s₁ hcopy =>
        rcases hrest : copyRange h rounds (cursor + min remaining copyChunk)
          (remaining - min remaining copyChunk) s₁ with ⟨ok,rest,s₂⟩
        rw [hrest] at hrun
        obtain ⟨rfl,hrun⟩ := Prod.mk.inj hrun
        obtain ⟨rfl,rfl⟩ := Prod.mk.inj hrun
        have htiles := Tiles.cons (ih _ _ _ hrest)
        rwa [Nat.add_sub_cancel' (Nat.min_le_left _ _)] at htiles

theorem writeRange_true {i : ℕ} {offset size : BitVec 32} {path : CString} {x x' : Extraction σ}
    (hrun : writeRange h i offset size path x = (true,x')) :
    ∃ chunks, Tiles offset.toNat size.toNat chunks ∧
      x'.files = x.files ++ [⟨i,path,chunks⟩] := by
  unfold writeRange at hrun
  rcases hopen : h.openFile path x.host with ⟨opened,host⟩
  rcases hcopy : copyRange h size.toNat offset.toNat size.toNat host with ⟨copied,chunks,host₁⟩
  rcases hclose : h.close host₁ with ⟨closed,host₂⟩
  simp only [hopen,Extraction.log,hcopy,hclose] at hrun
  split at hrun
  next =>
    split at hrun
    next hok =>
      obtain ⟨hcopied,-⟩ := Bool.and_eq_true_iff.mp hok
      subst hcopied
      refine ⟨chunks,tiles_copyRange h _ _ _ _ hcopy,?_⟩
      rw [← (Prod.mk.inj hrun).2]
      simp only [Extraction.files,List.filterMap_append,List.append_assoc]
      rfl
    next => exact absurd (Prod.mk.inj hrun).1 (by decide)
  next => exact absurd (Prod.mk.inj hrun).1 (by decide)

theorem walked_run (fuel : ℕ) :
    (∀ d p x next x', extractFstDir h entries fuel d p x = .done next x' →
      next = stopOf entries d ∧ d < stopOf entries d ∧ stopOf entries d ≤ entries.length ∧
        ∃ ws, x'.files = x.files ++ ws ∧ Walked entries (d + 1) (stopOf entries d) p ws) ∧
    ∀ i stop p x next x', extractLoop h entries fuel i stop p x = .done next x' →
      next = stop ∧ ∃ ws, x'.files = x.files ++ ws ∧ Walked entries i stop p ws := by
  induction fuel with
  | zero =>
    refine ⟨fun d p x next x' hrun => ?_,fun i stop p x next x' hrun => ?_⟩
    · cases hrun
    · cases hrun
  | succ fuel ih =>
    refine ⟨fun d p x next x' hrun => ?_,fun i stop p x next x' hrun => ?_⟩
    · rw [extractFstDir] at hrun
      split at hrun
      next => cases hrun
      next hrange =>
        have hlt : d < stopOf entries d := not_le.mp fun hno => hrange (.inr hno)
        obtain ⟨hnext,ws,hws,hwalk⟩ := ih.2 _ _ _ _ _ _ hrun
        exact ⟨hnext,hlt,not_lt.mp fun hno => hrange (.inl hno),ws,hws,hwalk⟩
    · rw [extractLoop] at hrun
      split at hrun
      next hi =>
        have hlog : (x.log (.joined p (entryAt entries i).name)).files = x.files :=
          (files_log _ _).trans (List.append_nil _)
        dsimp only at hrun
        split at hrun
        next => cases hrun
        next q hjoin =>
          split at hrun
          next hdir =>
            split at hrun
            next => cases hrun
            next x₁ hmade =>
              split at hrun
              next after x₂ hsub =>
                obtain ⟨rfl,hlt,hle,ws,hws,hwalk⟩ := ih.1 _ _ _ _ _ hsub
                obtain ⟨hnext,ws',hws',hrest⟩ := ih.2 _ _ _ _ _ _ hrun
                have hmake := files_makeDirTree h q (x.log (.joined p (entryAt entries i).name))
                rw [hmade,hlog] at hmake
                refine ⟨hnext,ws ++ ws',?_,.dir hi hdir hjoin hlt hle hwalk hrest⟩
                rw [hws',hws,hmake,List.append_assoc]
              next hended => exact absurd hrun (hended _ _)
          next hdir =>
            split at hrun
            next => cases hrun
            next x₁ hwrite =>
              obtain ⟨chunks,htiles,hfiles⟩ := writeRange_true h hwrite
              obtain ⟨hnext,ws,hws,hrest⟩ := ih.2 _ _ _ _ _ _ hrun
              refine ⟨hnext,⟨i,q,chunks⟩ :: ws,?_,
                .file hi (eq_false_of_ne_true hdir) hjoin rfl rfl htiles hrest⟩
              rw [hws,hfiles,hlog,List.append_assoc]
              rfl
      next hi =>
        cases hrun
        exact ⟨rfl,[],(List.append_nil _).symm,.nil (not_lt.mp hi)⟩

theorem walk_ends (fuel : ℕ) :
    (∀ d p x, 0 < fuel → 2*(entries.length - d) ≤ fuel →
      extractFstDir h entries fuel d p x ≠ .outOfFuel) ∧
    ∀ i stop p x, stop ≤ entries.length → 2*(entries.length - i) < fuel →
      extractLoop h entries fuel i stop p x ≠ .outOfFuel := by
  induction fuel with
  | zero => exact ⟨fun d p x hpos => absurd hpos (by decide),fun i stop p x _ hf => absurd hf (by omega)⟩
  | succ fuel ih =>
    refine ⟨fun d p x _ hf => ?_,fun i stop p x hstop hf => ?_⟩
    · rw [extractFstDir]
      split
      next => nofun
      next hrange => exact ih.2 _ _ _ _ (by omega) (by omega)
    · rw [extractLoop]
      split
      next hi =>
        dsimp only
        split
        next => nofun
        next q hjoin =>
          split
          next =>
            split
            next => nofun
            next x₁ hmade =>
              split
              next after x₂ hsub =>
                obtain ⟨rfl,hlt,-⟩ := (walked_run entries h fuel).1 _ _ _ _ _ hsub
                exact ih.2 _ _ _ _ hstop (by omega)
              next => exact ih.1 _ _ _ (by omega) (by omega)
          next =>
            split
            next => nofun
            next => exact ih.2 _ _ _ _ hstop (by omega)
      next => nofun

end

def times (f : ℕ) (ws : List Written) : ℕ := (ws.filter (fun w => w.entry = f)).length

theorem times_append (f : ℕ) (ws ws' : List Written) :
    times f (ws ++ ws') = times f ws + times f ws' := by
  rw [times,List.filter_append,List.length_append]
  rfl

theorem times_cons (f : ℕ) (w : Written) (ws : List Written) :
    times f (w :: ws) = (if w.entry = f then 1 else 0) + times f ws := by
  rw [times,List.filter_cons]
  by_cases h : w.entry = f
  · rw [if_pos (decide_eq_true h),if_pos h,List.length_cons,Nat.add_comm]
    rfl
  · rw [if_neg fun hno => h (of_decide_eq_true hno),if_neg h,Nat.zero_add]
    rfl

theorem times_pos {w : Written} {ws : List Written} (h : w ∈ ws) : 0 < times w.entry ws :=
  List.length_pos_of_mem (List.mem_filter.mpr ⟨h,decide_eq_true rfl⟩)

variable {entries}

namespace Walked

variable {i stop : ℕ} {p : CString} {ws : List Written}

theorem isFile (hwalk : Walked entries i stop p ws) (hstop : stop ≤ entries.length) :
    ∀ w ∈ ws, IsFile entries w.entry ∧ Holds entries w := by
  induction hwalk with
  | nil => exact fun w hw => absurd hw List.not_mem_nil
  | file hi hfile hjoin hentry hpath hholds hrest ih =>
    intro w hw
    rcases List.mem_cons.mp hw with rfl | hw
    · exact ⟨hentry ▸ ⟨by omega,hfile⟩,hholds⟩
    · exact ih hstop w hw
  | dir hi hdir hjoin hlt hle hsub hrest ihsub ihrest =>
    intro w hw
    rcases List.mem_append.mp hw with hw | hw
    · exact ihsub hle w hw
    · exact ihrest hstop w hw

theorem covers (hwalk : Walked entries i stop p ws) {f : ℕ}
    (hf : (entryAt entries f).isDir = false) (hi : i ≤ f) (hstop : f < stop) :
    1 ≤ times f ws := by
  induction hwalk with
  | nil hle => omega
  | @file i _ _ _ w _ _ _ _ hentry _ _ _ ih =>
    rw [times_cons,hentry]
    by_cases h : i = f
    · rw [if_pos h]
      omega
    · have := ih (by omega) hstop
      omega
  | @dir i _ _ _ _ _ _ hdir _ _ _ _ _ ihsub ihrest =>
    have hne : i ≠ f := fun hno => by
      rw [hno,hf] at hdir
      cases hdir
    rw [times_append]
    by_cases h : f < stopOf entries i
    · have := ihsub (by omega) h
      omega
    · have := ihrest (by omega) hstop
      omega

theorem nested (hwalk : Walked entries i stop p ws) {d : ℕ}
    (hd : (entryAt entries d).isDir = true) (hi : i ≤ d) (hstop : d < stop) :
    ∃ q sub, Walked entries (d + 1) (stopOf entries d) q sub ∧ ∀ f, times f sub ≤ times f ws := by
  induction hwalk with
  | nil hle => omega
  | @file i _ _ _ w ws _ hfile _ _ _ _ _ ih =>
    have hne : i ≠ d := fun hno => by
      rw [hno,hd] at hfile
      cases hfile
    obtain ⟨q,sub,hsub,htimes⟩ := ih (by omega) hstop
    refine ⟨q,sub,hsub,fun f => (htimes f).trans ?_⟩
    rw [times_cons]
    omega
  | @dir i _ _ q ws ws' _ hdir _ hlt hle hsub _ ihsub ihrest =>
    have happend : ∀ f, times f ws ≤ times f (ws ++ ws') ∧ times f ws' ≤ times f (ws ++ ws') :=
      fun f => by
        rw [times_append]
        omega
    by_cases h : d = i
    · subst h
      exact ⟨q,ws,hsub,fun f => (happend f).1⟩
    · by_cases hlt : d < stopOf entries i
      · obtain ⟨q,sub,hsub,htimes⟩ := ihsub (by omega) hlt
        exact ⟨q,sub,hsub,fun f => (htimes f).trans (happend f).1⟩
      · obtain ⟨q,sub,hsub,htimes⟩ := ihrest (by omega) hstop
        exact ⟨q,sub,hsub,fun f => (htimes f).trans (happend f).2⟩

/-- A file that a directory reaches past the end of another one is written there as well. -/
theorem reaches {d c f : ℕ} (hs : Straddles entries d c f) {q : CString}
    (hwalk : Walked entries (d + 1) (stopOf entries d) q ws) : 1 ≤ times f ws := by
  obtain ⟨⟨-,hfile⟩,⟨-,hdc,hcd⟩,⟨hc,hcf,hfc⟩,-⟩ := hs
  obtain ⟨q',sub,hsub,htimes⟩ := hwalk.nested hc hdc hcd
  exact (hsub.covers hfile hcf hfc).trans (htimes f)

/-- Then it is written twice, as soon as the walk goes on to it. -/
theorem twice {d c f : ℕ} (hs : Straddles entries d c f) (hwalk : Walked entries i stop p ws)
    (hi : i ≤ d) (hd : d < stop) (hstop : f < stop) : 2 ≤ times f ws := by
  have hfile := hs.1.2
  have hdir := hs.2.1.1
  have hfd := hs.2.2.2
  induction hwalk with
  | nil hle => omega
  | @file i _ _ _ w ws _ hno _ _ _ _ _ ih =>
    have hne : i ≠ d := fun heq => by
      rw [heq,hdir] at hno
      cases hno
    rw [times_cons]
    have := ih (by omega) hd hstop
    omega
  | @dir i _ _ q ws ws' _ _ _ _ _ hsub hrest ihsub ihrest =>
    rw [times_append]
    by_cases h : d < stopOf entries i
    · by_cases hfi : f < stopOf entries i
      · by_cases heq : d = i
        · subst heq
          omega
        · have := ihsub (by omega) h hfi
          omega
      · have hrest := hrest.covers hfile (not_lt.mp hfi) hstop
        by_cases heq : d = i
        · subst heq
          have := reaches hs hsub
          omega
        · obtain ⟨q',sub,hsub',htimes⟩ := hsub.nested hdir (by omega) h
          have := (reaches hs hsub').trans (htimes f)
          omega
    · have := ihrest (by omega) hd hstop
      omega

variable (hno : ∀ d c f, ¬Straddles entries d c f)

include hno

/-- Without it, a walk of a directory writes the files of its range once, and no others. -/
theorem once (hwalk : Walked entries i stop p ws) {d : ℕ}
    (hd : (entryAt entries d).isDir = true) (hdi : d < i) (hstop : stopOf entries d = stop)
    {f : ℕ} (hf : IsFile entries f) : times f ws = if i ≤ f ∧ f < stop then 1 else 0 := by
  induction hwalk generalizing d with
  | nil hle =>
    rw [if_neg (by omega)]
    rfl
  | @file i _ _ _ w ws hi _ _ hentry _ _ _ ih =>
    rw [times_cons,hentry,ih hd (by omega) hstop]
    split_ifs <;> omega
  | @dir i _ _ q ws ws' hi hdir _ hlt _ _ _ ihsub ihrest =>
    have hne : i ≠ f := fun heq => by
      rw [heq,hf.2] at hdir
      cases hdir
    have hstraddle := hno d i f
    rw [times_append,ihsub hdir (Nat.lt_succ_self i) rfl,ihrest hd (by omega) hstop]
    by_cases hsub : i + 1 ≤ f ∧ f < stopOf entries i
    · have hin : f < stopOf entries d := not_le.mp fun hle =>
        hstraddle ⟨hf,⟨hd,hdi,by omega⟩,⟨hdir,hsub.1,hsub.2⟩,hle⟩
      rw [if_pos hsub,if_neg (by omega),if_pos (by omega)]
    · rw [if_neg hsub]
      split_ifs <;> omega

/-- And each below its tightest directory. -/
theorem pathOf {dirPath : CString} (hwalk : Walked entries i stop p ws) {d : ℕ}
    (hd : (entryAt entries d).isDir = true) (hdi : d < i) (hstop : stopOf entries d = stop)
    (hlen : stop ≤ entries.length) (hp : PathOf entries dirPath d p)
    (hclosed : ∀ c, (entryAt entries c).isDir = true → d < c → c < i →
      ∀ f, IsFile entries f → i ≤ f → stopOf entries c ≤ f) :
    ∀ w ∈ ws, PathOf entries dirPath w.entry w.path := by
  induction hwalk generalizing d with
  | nil => exact fun w hw => absurd hw List.not_mem_nil
  | @file i _ p q v ws hi hfile hjoin hentry hpath _ _ ih =>
    have htight : Tightest entries d i := by
      refine ⟨⟨hd,hdi,hstop ▸ hi⟩,fun c ⟨hc,hci,hic⟩ => not_lt.mp fun hdc => ?_⟩
      exact absurd (hclosed c hc hdc hci i ⟨by omega,hfile⟩ le_rfl) (by omega)
    intro w hw
    rcases List.mem_cons.mp hw with rfl | hw
    · rw [hentry,hpath]
      exact .child hp htight hjoin
    · refine ih hd (by omega) hstop hlen hp (fun c hc hdc hci f hf hif => ?_) w hw
      have hne : c ≠ i := fun heq => by
        rw [heq,hfile] at hc
        cases hc
      exact hclosed c hc hdc (by omega) f hf (by omega)
  | @dir i _ p q ws ws' hi hdir hjoin hlt hle hsub _ ihsub ihrest =>
    intro w hw
    rcases List.mem_append.mp hw with hw | hw
    · -- a directory without a file in it may be met again elsewhere
      have hfile := (hsub.isFile hle w hw).1
      have honce := once hno hsub hdir (Nat.lt_succ_self i) rfl hfile
      have hpos := times_pos hw
      have hin : i + 1 ≤ w.entry ∧ w.entry < stopOf entries i := by
        by_contra hout
        rw [if_neg hout] at honce
        omega
      have htight : Tightest entries d i := by
        refine ⟨⟨hd,hdi,hstop ▸ hi⟩,fun c ⟨hc,hci,hic⟩ => not_lt.mp fun hdc => ?_⟩
        have hend := hclosed c hc hdc hci w.entry hfile (by omega)
        exact hno c i w.entry ⟨hfile,⟨hc,hci,hic⟩,⟨hdir,hin.1,hin.2⟩,hend⟩
      exact ihsub hdir (Nat.lt_succ_self i) rfl hle (.child hp htight hjoin)
        (fun c _ hic hci => absurd hic (by omega)) w hw
    · refine ihrest hd (by omega) hstop hlen hp (fun c hc hdc hci f hf hif => ?_) w hw
      by_cases hlow : c < i
      · exact hclosed c hc hdc hlow f hf (by omega)
      · by_cases heq : c = i
        · rw [heq]
          exact hif
        · exact not_lt.mp fun hfc =>
            hno i c f ⟨hf,⟨hdir,by omega,hci⟩,⟨hc,by omega,hfc⟩,hif⟩

end Walked

theorem forall₂_of_mapM {α β : Type} {f : α → Option β} {l : List α} {l' : List β}
    (h : l.mapM f = some l') : List.Forall₂ (fun a b => f a = some b) l l' := by
  induction l generalizing l' with
  | nil =>
    cases h
    exact .nil
  | cons a l ih =>
    rw [List.mapM_cons] at h
    obtain ⟨b,hb,h⟩ := Option.bind_eq_some_iff.mp h
    obtain ⟨bs,hbs,h⟩ := Option.bind_eq_some_iff.mp h
    cases h
    exact .cons hb (ih hbs)

theorem parseFstEntry_some {fst names : CString} {i : ℕ} {e : FstEntry}
    (h : parseFstEntry fst names i = some e) :
    e.isDir = (Rel.readBe32 (fun n => fst.getD (12*i + n) 0) 0 >>> 24 != 0) ∧
      e.size = Rel.readBe32 (fun n => fst.getD (12*i + n) 0) 8 := by
  unfold parseFstEntry at h
  dsimp only at h
  split at h
  next => cases h
  next =>
    cases h
    exact ⟨rfl,rfl⟩

/-- The root of a table that is accepted is a directory that ends with the table. -/
theorem root_of_parse {fst : CString} (h : parseFstEntries fst = some entries) :
    0 < entries.length ∧ (entryAt entries 0).isDir = true ∧ stopOf entries 0 = entries.length := by
  unfold parseFstEntries at h
  split at h
  next => cases h
  next =>
    dsimp only at h
    split at h
    next => cases h
    next hroot =>
      have hall := forall₂_of_mapM h
      have hlen := hall.length_eq
      rw [List.length_range] at hlen
      have hpos : 0 < entries.length := hlen ▸ Nat.pos_of_ne_zero fun hno => hroot (.inr (.inl hno))
      have hfirst := (List.forall₂_iff_get.mp hall).2 0 (by rwa [List.length_range,hlen]) hpos
      have hentry : entryAt entries 0 = entries.get ⟨0,hpos⟩ :=
        (List.getElem_eq_getD default).symm
      rw [List.get_eq_getElem,List.getElem_range,← hentry] at hfirst
      obtain ⟨hdir,hsize⟩ := parseFstEntry_some hfirst
      simp only [Nat.mul_zero,Nat.zero_add] at hdir hsize
      refine ⟨hpos,?_,?_⟩
      · rw [hdir,of_not_not fun hno => hroot (.inl hno)]
        rfl
      · rw [stopOf,hsize,hlen]

/-- The walk of an accepted table ends, and when it succeeds, every file has been written once, with
its bytes and in its directory, if and only if no directory reaches past the end of another one to a
file behind it. -/
theorem fst_extraction_exact_iff {fst : CString} {entries : List FstEntry}
    (hparse : parseFstEntries fst = some entries) {σ : Type} (h : Host σ) (dirPath : CString)
    (s : σ) (fuel : ℕ) (hfuel : walkFuel entries ≤ fuel) :
    extractFstDir h entries fuel 0 dirPath ⟨s,[]⟩ ≠ .outOfFuel ∧
    ∀ next x, extractFstDir h entries fuel 0 dirPath ⟨s,[]⟩ = .done next x →
      (Exact entries dirPath x.files ↔ ∀ d c f, ¬Straddles entries d c f) := by
  obtain ⟨hpos,hdir,hstop⟩ := root_of_parse hparse
  refine ⟨(walk_ends entries h fuel).1 _ _ _ ?_ ?_,fun next x hrun => ?_⟩
  · exact Nat.lt_of_lt_of_le (Nat.succ_pos _) hfuel
  · exact (Nat.le_succ _).trans hfuel
  obtain ⟨-,-,-,ws,hws,hwalk⟩ := (walked_run entries h fuel).1 _ _ _ _ _ hrun
  rw [show x.files = ws from hws]
  rw [hstop] at hwalk
  constructor
  · rintro hexact d c f hs
    obtain ⟨w,hw,-⟩ := hexact f hs.1
    have hone : times f ws = 1 := congrArg List.length hw
    by_cases hd : d = 0
    · have := hs.1.1
      have := hs.2.2.2
      rw [hd,hstop] at this
      omega
    · have hlt : d < entries.length := by
        have := hs.1.1
        have := hs.2.1.2
        have := hs.2.2.2
        omega
      have := hwalk.twice hs (by omega) hlt hs.1.1
      omega
  · intro hno f hf
    have hroot : f ≠ 0 := fun heq => by
      rw [← heq,hf.2] at hdir
      cases hdir
    have hone := hwalk.once hno hdir Nat.one_pos hstop hf
    rw [if_pos ⟨by omega,hf.1⟩] at hone
    obtain ⟨w,hw⟩ := List.length_eq_one_iff.mp hone
    have hmem := List.mem_filter.mp (hw ▸ List.mem_singleton_self w : w ∈ ws.filter _)
    have hentry : w.entry = f := of_decide_eq_true hmem.2
    have hpath := hwalk.pathOf hno hdir Nat.one_pos hstop le_rfl (.root : PathOf entries dirPath 0 _)
      (fun c _ hc hci => absurd hc (by omega)) w hmem.1
    exact ⟨w,hw,hentry ▸ hpath,(hwalk.isFile le_rfl w hmem.1).2⟩

/-- A host that does what it is asked. -/
def willingHost : Host Unit where
  makeDir _ s := (true,s)
  openFile _ s := (true,s)
  copy _ _ s := (true,s)
  close s := (true,s)

/-- A table of a root, two directories that end where it is told, and an empty file, all named A. -/
def sampleFst (first second : BitVec 8) : CString :=
  [1,0,0,0,0,0,0,0,0,0,0,4,
   1,0,0,0,0,0,0,0,0,0,0,first,
   1,0,0,0,0,0,0,0,0,0,0,second,
   0,0,0,0,0,0,0,0,0,0,0,0,
   0x41,0]

def sampleEntries (first second : BitVec 32) : List FstEntry :=
  [⟨true,0,0,4,[0x41]⟩,⟨true,0,0,first,[0x41]⟩,⟨true,0,0,second,[0x41]⟩,⟨false,0,0,0,[0x41]⟩]

def outDir : CString := [0x6F,0x75,0x74]

def walkFiles {σ : Type} : Walk σ → Option (List ℕ)
  | .done _ x => some (x.files.map Written.entry)
  | _ => none

theorem done_of_walkFiles {σ : Type} {w : Walk σ} {l : List ℕ} (h : walkFiles w = some l) :
    ∃ next x, w = .done next x ∧ x.files.map Written.entry = l := by
  cases w with
  | done next x => exact ⟨next,x,rfl,Option.some.inj h⟩
  | _ => cases h

/-- The file is behind the end of the first directory, and the second one reaches it. -/
theorem fst_extraction_twice :
    ¬∀ fst entries, parseFstEntries fst = some entries → ∀ next x,
      extractFst willingHost entries outDir () = .done next x → Exact entries outDir x.files := by
  intro hall
  have hfiles : walkFiles (extractFst willingHost (sampleEntries 3 4) outDir ()) =
      some [3,3] := by decide
  obtain ⟨next,x,hrun,hmap⟩ := done_of_walkFiles hfiles
  obtain ⟨w,hw,-⟩ := hall (sampleFst 3 4) _ (by decide) next x hrun 3 ⟨by decide,rfl⟩
  have htwice : (x.files.map Written.entry).filter (· = 3) = [3,3] := by
    rw [hmap]
    rfl
  rw [List.filter_map] at htwice
  have hlen := congrArg List.length htwice
  rw [List.length_map] at hlen
  have htwo : 2 = 1 := hlen.symm.trans (congrArg List.length hw)
  cases htwo

/-- The walk of the table whose second directory ends with the first. -/
theorem fst_extraction_exact_iff_nested :
    ∃ next x, extractFstDir willingHost (sampleEntries 4 4) (walkFuel (sampleEntries 4 4)) 0 outDir
        ⟨(),[]⟩ = .done next x ∧ Exact (sampleEntries 4 4) outDir x.files := by
  have hfiles : walkFiles (extractFst willingHost (sampleEntries 4 4) outDir ()) = some [3] := by
    decide
  obtain ⟨next,x,hrun,-⟩ := done_of_walkFiles hfiles
  refine ⟨next,x,hrun,((@fst_extraction_exact_iff (sampleFst 4 4) _ (by decide) Unit
    willingHost outDir () _ le_rfl).2 next x hrun).2 ?_⟩
  rintro d c f ⟨hf,⟨hd,-⟩,-,hstop⟩
  have hlt : f < 4 := hf.1
  match d with
  | 0 | 1 | 2 => exact absurd hstop (not_le.mpr hlt)
  | 3 => cases hd
  | d + 4 => cases hd

end Disc

end DolRecomp
