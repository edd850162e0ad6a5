import DolRecomp.Relocation

/-!
# Extraction of a disc

The file-system table of a disc image, and the walk that makes its directories and writes its
files. A string of C is the list of its bytes without the terminator. The host answers to the calls
that make a directory, open a file, copy a chunk of the image into it and close it.
-/

namespace DolRecomp

namespace Disc

abbrev CString := List (BitVec 8)

def maxPathBuf : ℕ := 4096

def copyChunk : ℕ := 0x10000

def slash : BitVec 8 := 0x2F
def backslash : BitVec 8 := 0x5C
def dot : BitVec 8 := 0x2E
def underscore : BitVec 8 := 0x5F

def IsSeparator (c : BitVec 8) : Prop := c = slash ∨ c = backslash

instance : DecidablePred IsSeparator := fun c => inferInstanceAs (Decidable (c = slash ∨ c = backslash))

/-- What `snprintf` leaves in a buffer. -/
def truncated (outSize : ℕ) (s : CString) : CString := s.take (outSize - 1)

def separator (a : CString) : CString :=
  match a.getLast? with
  | none => []
  | some c => if IsSeparator c then [] else [slash]

/-- `join_path`; `snprintf` answers with the length that it was to write, as an `int`. -/
def joinPath (outSize : ℕ) (a b : CString) : Option CString :=
  let text := a ++ separator a ++ b
  if 0 < text.length ∧ text.length ≤ 0x7FFFFFFF ∧ (truncated outSize text).length < outSize then
    some (truncated outSize text)
  else none

def keptByte (c : BitVec 8) : Bool :=
  !(c.toNat < 0x20 || c == slash || c == backslash || c == 0x3A || c == 0x2A || c == 0x3F ||
    c == 0x22 || c == 0x3C || c == 0x3E || c == 0x7C)

def sanitizeComponent (outSize : ℕ) (name : CString) : CString :=
  if name = [dot] ∨ name = [dot,dot] ∨ name = [] then truncated outSize [underscore]
  else
    let out := truncated outSize (name.map fun c => if keptByte c then c else underscore)
    if out = [] then truncated outSize [underscore] else out

structure FstEntry where
  isDir : Bool
  nameOffset : BitVec 32
  offset : BitVec 32
  size : BitVec 32
  name : CString
  deriving DecidableEq

instance : Inhabited FstEntry := ⟨⟨false,0,0,0,[]⟩⟩

/-- `find_string_end`; the index goes through an `int`. -/
def findStringEnd (base : CString) (offset : ℕ) : ℤ :=
  match (base.drop offset).findIdx? (· == 0) with
  | none => -1
  | some n => (BitVec.ofNat 32 (offset + n)).toInt

def parseFstEntry (fst names : CString) (i : ℕ) : Option FstEntry :=
  let raw := Rel.readBe32 (fun n => fst.getD (12*i + n) 0)
  let typeName := raw 0
  let nameOffset := typeName &&& 0x00FFFFFF
  if findStringEnd names nameOffset.toNat < 0 then none
  else some
    { isDir := typeName >>> 24 != 0
      nameOffset := nameOffset
      offset := raw 4
      size := raw 8
      name := sanitizeComponent 256 ((names.drop nameOffset.toNat).takeWhile (· != 0)) }

def parseFstEntries (fst : CString) : Option (List FstEntry) :=
  if fst.length < 12 then none
  else
    let root := Rel.readBe32 (fun n => fst.getD n 0) 0
    let count := (Rel.readBe32 (fun n => fst.getD n 0) 8).toNat
    if root >>> 24 ≠ 1 ∨ count = 0 ∨ count > fst.length/12 then none
    else (List.range count).mapM (parseFstEntry fst (fst.drop (12*count)))

/-- What the host answers; the chunk is copied from a place in the image to the open file. -/
structure Host (σ : Type) where
  makeDir : CString → σ → Bool × σ
  openFile : CString → σ → Bool × σ
  copy : ℕ → ℕ → σ → Bool × σ
  close : σ → Bool × σ

/-- A file that was written: the entry, the path, and the chunks of the image in it. -/
structure Written where
  entry : ℕ
  path : CString
  chunks : List (ℕ × ℕ)
  deriving DecidableEq

inductive Event
  | joined (dir name : CString)
  | made (path : CString)
  | opened (path : CString)
  | written (w : Written)
  deriving DecidableEq

structure Extraction (σ : Type) where
  host : σ
  events : List Event

section

variable {σ : Type} (h : Host σ)

def Extraction.log (x : Extraction σ) (e : Event) : Extraction σ :=
  { x with events := x.events ++ [e] }

def makeDirOne (path : CString) (x : Extraction σ) : Bool × Extraction σ :=
  let (ok,host) := h.makeDir path x.host
  (ok,{ x with host := host }.log (.made path))

def makeParents (path : CString) : List ℕ → Extraction σ → Bool × Extraction σ
  | [], x => (true,x)
  | i :: is, x =>
    if IsSeparator (path.getD i 0) ∧ i ≠ 0 then
      match makeDirOne h (path.take i) x with
      | (true,x) => makeParents path is x
      | (false,x) => (false,x)
    else makeParents path is x

def makeDirTree (path : CString) (x : Extraction σ) : Bool × Extraction σ :=
  if path.length = 0 ∨ path.length ≥ maxPathBuf then (false,x)
  else
    match makeParents h path (List.range path.length) x with
    | (true,x) => makeDirOne h path x
    | (false,x) => (false,x)

/-- The copy loop of `write_range`, with the chunks that were copied. A chunk is not empty, so that
as many rounds as there are bytes are enough. -/
def copyRange : (rounds cursor remaining : ℕ) → σ → Bool × List (ℕ × ℕ) × σ
  | 0, _, remaining, s => (remaining = 0,[],s)
  | rounds + 1, cursor, remaining, s =>
    if remaining = 0 then (true,[],s)
    else
      let chunk := min remaining copyChunk
      match h.copy cursor chunk s with
      | (false,s) => (false,[],s)
      | (true,s) =>
        let (ok,chunks,s) := copyRange rounds (cursor + chunk) (remaining - chunk) s
        (ok,(cursor,chunk) :: chunks,s)

/-- `write_range`, for an entry. -/
def writeRange (entry : ℕ) (offset size : BitVec 32) (path : CString) (x : Extraction σ) :
    Bool × Extraction σ :=
  let (opened,host) := h.openFile path x.host
  let x := { x with host := host }.log (.opened path)
  if opened then
    let (copied,chunks,host) := copyRange h size.toNat offset.toNat size.toNat x.host
    let (closed,host) := h.close host
    let x := { x with host := host }
    if copied && closed then (true,x.log (.written ⟨entry,path,chunks⟩)) else (false,x)
  else (false,x)

/-- How a call of `extract_fst_dir` or a run of its loop ends: with the next index, with an error,
or not within the given number of steps. -/
inductive Walk (σ : Type)
  | outOfFuel
  | failed (x : Extraction σ)
  | done (next : ℕ) (x : Extraction σ)

variable (entries : List FstEntry)

def entryAt (i : ℕ) : FstEntry := entries.getD i default

mutual

def extractFstDir : (fuel dirIndex : ℕ) → CString → Extraction σ → Walk σ
  | 0, _, _, _ => .outOfFuel
  | fuel + 1, dirIndex, dirPath, x =>
    let stop := (entryAt entries dirIndex).size.toNat
    if stop > entries.length ∨ stop ≤ dirIndex then .failed x
    else extractLoop fuel (dirIndex + 1) stop dirPath x

def extractLoop : (fuel i stop : ℕ) → CString → Extraction σ → Walk σ
  | 0, _, _, _, _ => .outOfFuel
  | fuel + 1, i, stop, dirPath, x =>
    if i < stop then
      let entry := entryAt entries i
      let x := x.log (.joined dirPath entry.name)
      match joinPath maxPathBuf dirPath entry.name with
      | none => .failed x
      | some childPath =>
        if entry.isDir then
          match makeDirTree h childPath x with
          | (false,x) => .failed x
          | (true,x) =>
            match extractFstDir fuel i childPath x with
            | .done afterDir x => extractLoop fuel afterDir stop dirPath x
            | ended => ended
        else
          match writeRange h i entry.offset entry.size childPath x with
          | (false,x) => .failed x
          | (true,x) => extractLoop fuel (i + 1) stop dirPath x
    else .done stop x

end

def walkFuel : ℕ := 2*entries.length + 1

/-- `extract_fst_dir` for the root, as it is called for a parsed table. -/
def extractFst (dirPath : CString) (s : σ) : Walk σ :=
  extractFstDir h entries (walkFuel entries) 0 dirPath ⟨s,[]⟩

end

end Disc

end DolRecomp
