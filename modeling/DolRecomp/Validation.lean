import Mathlib.Data.Finset.Card
import DolRecomp.NativeTable

/-!
# Validation and invalidation of native ranges

The atomic actions of `validate_index`, `invalidate` and `region_available`, as
they are generated, over one state word for each range and one counter. Guest
stores and a reset of an idle module are moves of the environment.
-/

namespace DolRecomp

open Threads

namespace Validation

/-- `MODERNGEKKO_NATIVE_DIRTY`, `VALID` and `CHANGED`, the last two bits of a state word. -/
def dirty : BitVec 32 := 0
def valid : BitVec 32 := 1
def changed : BitVec 32 := 2

def status (word : BitVec 32) : BitVec 32 := word &&& 3#32

/-- The number of invalidations in a state word, modulo 2^30. -/
def generation (word : BitVec 32) : ℕ := word.toNat / 4

/-- The tables and the sizes of the two guest memories. -/
structure Module where
  table : NativeTable
  mem1Size : BitVec 32
  mem2Size : BitVec 32

inductive Memory
  | mem1 | mem2
  deriving DecidableEq, Repr

structure Shared where
  /-- `moderngekko_native_state` -/
  state : ℕ → BitVec 32
  /-- `moderngekko_native_unavailable` -/
  unavailable : BitVec 32
  mem : Memory → ℕ → BitVec 8

def size (range : NativeRange) : BitVec 32 := range.endAddr - range.start

/-- `moderngekko_native_bytes`: where the bytes of a range are, when all of them exist. -/
def bytes (M : Module) (range : NativeRange) : Option (Memory × ℕ) :=
  let within (base memSize : BitVec 32) : Bool :=
    base ≤ range.start && range.start - base ≤ memSize && size range ≤ memSize - (range.start - base)
  if within 0x80000000 M.mem1Size then some (.mem1, (range.start - 0x80000000).toNat)
  else if within 0x90000000 M.mem2Size then some (.mem2, (range.start - 0x90000000).toNat)
  else none

def hashBasis : BitVec 64 := 0xCBF29CE484222325

def hashByte (hash : BitVec 64) (byte : BitVec 8) : BitVec 64 :=
  (hash ^^^ byte.zeroExtend 64) * 0x100000001B3

/-- The hash of the first `n` bytes from a place on. -/
def hashPrefix (mem : ℕ → BitVec 8) (offset : ℕ) : ℕ → BitVec 64
  | 0 => hashBasis
  | n+1 => hashByte (hashPrefix mem offset n) (mem (offset + n))

def Matches (M : Module) (s : Shared) (index : ℕ) : Prop :=
  ∃ range place, M.table.ranges[index]? = some range ∧ bytes M range = some place ∧
    hashPrefix (s.mem place.1) place.2 (size range).toNat = range.hash

def Valid (s : Shared) (index : ℕ) : Prop := status (s.state index) = valid

instance (s : Shared) (index : ℕ) : Decidable (Valid s index) :=
  inferInstanceAs (Decidable (_ = _))

/-- Where a call of `validate_index` is. -/
inductive VPc
  | load
  | hash (observed : BitVec 32) (pos : ℕ) (hash : BitVec 64)
  | swap (observed : BitVec 32) (isMatch : Bool)
  | count
  | done (result : Bool)

/-- Where a call of `invalidate` is. -/
inductive IPc
  | scan (index : ℕ)
  | swap (index : ℕ) (observed : BitVec 32)
  | count (index : ℕ)
  | done

/-- Where a call of `region_available` is; `check` is its call of `validate_index`. -/
inductive RPc
  | read
  | find
  | loop (index : ℕ)
  | check (index : ℕ) (pc : VPc)
  | done (result : Bool)

inductive Op
  | validate (index : ℕ) (pc : VPc)
  | invalidate (endAddr : BitVec 32) (pc : IPc)
  | region (start endAddr : BitVec 32) (pc : RPc)

/-- What a validator does with the word it has seen. -/
def afterLoad (M : Module) (index : ℕ) (observed : BitVec 32) : VPc :=
  if status observed = valid then .done true
  else if status observed = changed then .done false
  else
    match M.table.ranges[index]?.bind (bytes M) with
    | none => .swap observed false
    | some _ => .hash observed 0 hashBasis

def published (observed : BitVec 32) (isMatch : Bool) : BitVec 32 :=
  (observed &&& ~~~3#32) ||| if isMatch then valid else changed

def invalidated (observed : BitVec 32) : BitVec 32 := ((observed &&& ~~~3#32) + 4#32) ||| dirty

def Shared.setState (s : Shared) (index : ℕ) (word : BitVec 32) : Shared :=
  { s with state := Function.update s.state index word }

/-- The actions of `validate_index`. The compare-and-swap is weak: it may fail on an
unchanged word. -/
inductive VAct (M : Module) (index : ℕ) (s : Shared) : VPc → Shared → VPc → Prop
  | load : VAct M index s .load s (afterLoad M index (s.state index))
  | byte {observed : BitVec 32} {pos : ℕ} {h : BitVec 64} {range : NativeRange} {place : Memory × ℕ}
      (hr : M.table.ranges[index]? = some range) (hb : bytes M range = some place)
      (hp : pos < (size range).toNat) :
      VAct M index s (.hash observed pos h) s
        (.hash observed (pos + 1) (hashByte h (s.mem place.1 (place.2 + pos))))
  | hashed {observed : BitVec 32} {pos : ℕ} {h : BitVec 64} {range : NativeRange}
      {place : Memory × ℕ} (hr : M.table.ranges[index]? = some range)
      (hb : bytes M range = some place) (hp : pos = (size range).toNat) :
      VAct M index s (.hash observed pos h) s (.swap observed (h == range.hash))
  | publish {observed : BitVec 32} {isMatch : Bool} (h : s.state index = observed) :
      VAct M index s (.swap observed isMatch) (s.setState index (published observed isMatch))
        (if isMatch then .count else .done false)
  | retry {observed : BitVec 32} {isMatch : Bool} :
      VAct M index s (.swap observed isMatch) s (afterLoad M index (s.state index))
  | count : VAct M index s .count { s with unavailable := s.unavailable - 1 } (.done true)

/-- The actions of `invalidate`, which ends at the first range from `endAddr` on. -/
inductive IAct (M : Module) (endAddr : BitVec 32) (s : Shared) : IPc → Shared → IPc → Prop
  | load {index : ℕ} {range : NativeRange} (hr : M.table.ranges[index]? = some range)
      (h : range.start < endAddr) : IAct M endAddr s (.scan index) s (.swap index (s.state index))
  | stop {index : ℕ} (h : ∀ range, M.table.ranges[index]? = some range → endAddr ≤ range.start) :
      IAct M endAddr s (.scan index) s .done
  | swap {index : ℕ} {observed : BitVec 32} (h : s.state index = observed) :
      IAct M endAddr s (.swap index observed) (s.setState index (invalidated observed))
        (if status observed = valid then .count index else .scan (index + 1))
  | retry {index : ℕ} {observed : BitVec 32} :
      IAct M endAddr s (.swap index observed) s (.swap index (s.state index))
  | count {index : ℕ} :
      IAct M endAddr s (.count index) { s with unavailable := s.unavailable + 1 } (.scan (index + 1))

inductive RAct (M : Module) (start endAddr : BitVec 32) (s : Shared) : RPc → Shared → RPc → Prop
  | zero (h : s.unavailable = 0) : RAct M start endAddr s .read s (.done true)
  | nonzero (h : s.unavailable ≠ 0) : RAct M start endAddr s .read s .find
  | miss (h : NativeTable.search M.table.ranges start = none) :
      RAct M start endAddr s .find s (.done false)
  | found {index : ℕ} (h : NativeTable.search M.table.ranges start = some index) :
      RAct M start endAddr s .find s (.loop index)
  | check {index : ℕ} {range : NativeRange} (hr : M.table.ranges[index]? = some range)
      (h : range.start < endAddr) : RAct M start endAddr s (.loop index) s (.check index .load)
  | all {index : ℕ} (h : ∀ range, M.table.ranges[index]? = some range → endAddr ≤ range.start) :
      RAct M start endAddr s (.loop index) s (.done true)
  | step {index : ℕ} {pc pc' : VPc} {s' : Shared} (h : VAct M index s pc s' pc') :
      RAct M start endAddr s (.check index pc) s' (.check index pc')
  | next {index : ℕ} : RAct M start endAddr s (.check index (.done true)) s (.loop (index + 1))
  | fail {index : ℕ} : RAct M start endAddr s (.check index (.done false)) s (.done false)

inductive Act (M : Module) (s : Shared) : Op → Shared → Op → Prop
  | validate {index : ℕ} {pc pc' : VPc} {s' : Shared} (h : VAct M index s pc s' pc') :
      Act M s (.validate index pc) s' (.validate index pc')
  | invalidate {endAddr : BitVec 32} {pc pc' : IPc} {s' : Shared} (h : IAct M endAddr s pc s' pc') :
      Act M s (.invalidate endAddr pc) s' (.invalidate endAddr pc')
  | region {start endAddr : BitVec 32} {pc pc' : RPc} {s' : Shared}
      (h : RAct M start endAddr s pc s' pc') : Act M s (.region start endAddr pc) s' (.region start endAddr pc')

/-- The first range that ends after `address`, by the binary search of `invalidate`. -/
def firstAfter (ranges : List NativeRange) (address : BitVec 32) : ℕ → ℕ → ℕ → ℕ
  | 0, first, _ => first
  | fuel+1, first, last =>
    if first < last then
      let middle := first + (last - first) / 2
      match ranges[middle]? with
      | none => first
      | some range =>
        if range.endAddr ≤ address then firstAfter ranges address fuel (middle + 1) last
        else firstAfter ranges address fuel first middle
    else first

/-- The end of an invalidated region, which does not wrap. -/
def regionEnd (address size : BitVec 32) : BitVec 32 :=
  if BitVec.ult (-1 - address) size then -1 else address + size

inductive Call (M : Module) : Op → Prop
  | validate {index : ℕ} (h : index < M.table.ranges.length) : Call M (.validate index .load)
  | invalidate (address size : BitVec 32) :
      Call M (.invalidate (regionEnd address size)
        (.scan (firstAfter M.table.ranges address (M.table.ranges.length + 1) 0
          M.table.ranges.length)))
  | region (start endAddr : BitVec 32) : Call M (.region start endAddr .read)

def Op.finished : Op → Bool
  | .validate _ (.done _) | .invalidate _ .done | .region _ _ (.done _) => true
  | _ => false

/-- `moderngekko_native_reset` -/
def reset (M : Module) (s : Shared) : Shared :=
  { s with state := fun _ => dirty, unavailable := BitVec.ofNat 32 M.table.ranges.length }

/-- A guest store of one byte, or a reset while no operation is in flight. -/
inductive Env (M : Module) (c : Config Shared Op) : Shared → Prop
  | write (memory : Memory) (offset : ℕ) (byte : BitVec 8) :
      Env M c { c.shared with
        mem := Function.update c.shared.mem memory
          (Function.update (c.shared.mem memory) offset byte) }
  | reset (h : ∀ op ∈ c.ops, op.finished = true) : Env M c (reset M c.shared)

def system (M : Module) : System Shared Op where
  act c op s op' := Act M c.shared op s op'
  env c s := Env M c s
  new _ op := Call M op

/-- After the first reset, over any memory. -/
def initial (M : Module) (mem : Memory → ℕ → BitVec 8) : Config Shared Op :=
  ⟨reset M ⟨fun _ => 0,0,mem⟩,[]⟩

end Validation

end DolRecomp
