import DolRecomp.DiscExtract
import DolRecomp.EntryPoints
import Mathlib.Data.Nat.Digits.Defs

/-!
# The header of symbol macros

Names of a symbol map become identifiers, a number behind a name that is taken makes a new one, and
each symbol in a code section gets a macro for its address and one for its size.
-/

namespace DolRecomp

namespace Symbols

open Disc

def text (s : String) : CString := s.toList.map fun c => BitVec.ofNat 8 c.toNat

structure DolRecompSymbol where
  address : BitVec 32
  size : BitVec 32
  name : CString

instance : Inhabited DolRecompSymbol := ⟨⟨0,0,[]⟩⟩

/-- The count of a map is a word. -/
structure DolRecompSymbolMap where
  symbols : List DolRecompSymbol
  count_lt : symbols.length < 2^32

def isDigit (c : BitVec 8) : Bool := 0x30 ≤ c.toNat && c.toNat ≤ 0x39

def isAlnum (c : BitVec 8) : Bool :=
  isDigit c || (0x41 ≤ c.toNat && c.toNat ≤ 0x5A) || (0x61 ≤ c.toNat && c.toNat ≤ 0x7A)

/-- The loop of `symbol_name_to_identifier`. -/
def identifierLoop (outputSize : ℕ) : CString → CString → Bool → CString
  | [], output, _ => output
  | ch :: name, output, previousUnderscore =>
    let emitted := if isAlnum ch || ch == underscore then ch else underscore
    let lead := output = [] ∧ isDigit emitted = true
    if lead ∧ output.length + 1 ≥ outputSize then output
    else
      let output := if lead then output ++ [underscore] else output
      if emitted = underscore ∧ previousUnderscore = true then
        identifierLoop outputSize name output previousUnderscore
      else if output.length + 1 ≥ outputSize then output
      else identifierLoop outputSize name (output ++ [emitted]) (emitted = underscore)

/-- Underscores at the end go, except for one that is all there is; from the end on. -/
def dropUnderscores : CString → CString
  | c :: d :: rest => if c = underscore then dropUnderscores (d :: rest) else c :: d :: rest
  | output => output

def symbolNameToIdentifier (name : CString) (outputSize : ℕ) : Option CString :=
  if outputSize = 0 then none
  else
    let output := (dropUnderscores (identifierLoop outputSize name [] false).reverse).reverse
    if output = [] then none else some output

def findSection (sections : List LoadedCodeSection) (address : BitVec 32) :
    Option LoadedCodeSection :=
  sections.find? fun s => decide (s.address ≤ address ∧
    address.toNat < s.address.toNat + s.size.toNat)

/-- The loop of `resolved_size` over the symbols behind one. -/
def sizeToNext (address sectionEnd : BitVec 32) : List DolRecompSymbol → BitVec 32
  | [] => sectionEnd - address
  | symbol :: rest =>
    if symbol.address > address ∧ symbol.address < sectionEnd then symbol.address - address
    else if symbol.address ≥ sectionEnd then sectionEnd - address
    else sizeToNext address sectionEnd rest

def symbolAt (symbols : List DolRecompSymbol) (i : ℕ) : DolRecompSymbol := symbols.getD i default

def resolvedSize (symbols : List DolRecompSymbol) (index : ℕ) (s : LoadedCodeSection) :
    BitVec 32 :=
  let symbol := symbolAt symbols index
  let sectionEnd := s.address + s.size
  if symbol.size ≠ 0 then
    if symbol.size > sectionEnd - symbol.address then 0 else symbol.size
  else sizeToNext symbol.address sectionEnd (symbols.drop (index + 1))

def codeSize (symbols : List DolRecompSymbol) (sections : List LoadedCodeSection) (i : ℕ) :
    Option (BitVec 32) :=
  match findSection sections (symbolAt symbols i).address with
  | none => none
  | some s =>
    let size := resolvedSize symbols i s
    if size = 0 then none else some size

def countCodeSymbols (symbols : List DolRecompSymbol) (sections : List LoadedCodeSection) : ℕ :=
  ((List.range symbols.length).filter fun i => (codeSize symbols sections i).isSome).length

structure EmittedSymbol where
  symbol : ℕ
  size : BitVec 32
  identifier : CString

instance : Inhabited EmittedSymbol := ⟨⟨0,0,[]⟩⟩

/-- A slot is zero or one more than an index. -/
structure IdentifierSet where
  slots : ℕ → ℕ
  capacity : ℕ

def identifierHash (identifier : CString) : BitVec 64 :=
  identifier.foldl (fun hash c => (hash ^^^ c.zeroExtend 64)*0x100000001b3) 0xcbf29ce484222325

/-- The loop of `identifier_set_init`; a round doubles. -/
def growCapacity (target : ℕ) : ℕ → ℕ → Option ℕ
  | 0, capacity => some capacity
  | rounds + 1, capacity =>
    if capacity < target then
      if capacity > (2^64 - 1)/2 then none else growCapacity target rounds (2*capacity)
    else some capacity

def identifierSetInit (symbolCount : ℕ) : Option IdentifierSet :=
  (growCapacity (2*symbolCount) 64 16).map fun capacity => ⟨fun _ => 0,capacity⟩

/-- The slot to begin with. -/
def IdentifierSet.start (set : IdentifierSet) (identifier : CString) : ℕ :=
  (identifierHash identifier).toNat &&& (set.capacity - 1)

def containsLoop (set : IdentifierSet) (symbols : List EmittedSymbol) (identifier : CString) :
    ℕ → ℕ → Option Bool
  | 0, _ => none
  | fuel + 1, slot =>
    if set.slots slot ≠ 0 then
      if (symbols.getD (set.slots slot - 1) default).identifier = identifier then some true
      else containsLoop set symbols identifier fuel ((slot + 1) &&& (set.capacity - 1))
    else some false

/-- `identifier_set_contains`; `none` when it does not end. -/
def identifierSetContains (set : IdentifierSet) (symbols : List EmittedSymbol)
    (identifier : CString) : Option Bool :=
  containsLoop set symbols identifier set.capacity (set.start identifier)

def insertLoop (set : IdentifierSet) : ℕ → ℕ → Option ℕ
  | 0, _ => none
  | fuel + 1, slot =>
    if set.slots slot ≠ 0 then insertLoop set fuel ((slot + 1) &&& (set.capacity - 1))
    else some slot

/-- `identifier_set_insert`; `none` when it does not end. -/
def identifierSetInsert (set : IdentifierSet) (symbols : List EmittedSymbol) (index : ℕ) :
    Option IdentifierSet :=
  (insertLoop set set.capacity (set.start (symbols.getD index default).identifier)).map fun slot =>
    { set with slots := Function.update set.slots slot (index + 1) }

def hexDigit (v : BitVec 32) : BitVec 8 :=
  if v.toNat < 10 then BitVec.ofNat 8 (0x30 + v.toNat) else BitVec.ofNat 8 (0x41 + (v.toNat - 10))

/-- `%08X` -/
def hex8 (v : BitVec 32) : CString :=
  (List.range 8).map fun i => hexDigit ((v >>> (28 - 4*i)) &&& 0xF)

/-- `%u` -/
def decimal (n : ℕ) : CString :=
  if n = 0 then [0x30] else (Nat.digits 10 n).reverse.map fun d => BitVec.ofNat 8 (0x30 + d)

/-- The name with the address behind it, and from the second try on a number. -/
def suffixed (base : CString) (address suffix : BitVec 32) : CString :=
  if suffix = 0 then base ++ underscore :: hex8 address
  else base ++ underscore :: (hex8 address ++ underscore :: decimal suffix.toNat)

def identifierSize : ℕ := 256
def baseSize : ℕ := 112

/-- The loop over suffixes: the identifier that is free, or none that fits. -/
def suffixLoop (set : IdentifierSet) (emitted : List EmittedSymbol) (base : CString)
    (address : BitVec 32) : ℕ → BitVec 32 → Option (Option CString)
  | 0, _ => none
  | fuel + 1, suffix =>
    let identifier := suffixed base address suffix
    if identifier.length ≥ identifierSize then some none
    else
      match identifierSetContains set emitted identifier with
      | none => none
      | some false => some (some identifier)
      | some true => suffixLoop set emitted base address fuel (suffix + 1)

structure Emission where
  emitted : List EmittedSymbol
  set : IdentifierSet

def Emission.add (x : Emission) (item : EmittedSymbol) : Option Emission :=
  (identifierSetInsert x.set (x.emitted ++ [item]) x.emitted.length).map fun set =>
    ⟨x.emitted ++ [item],set⟩

/-- One symbol of the loop of `emit_symbol_definitions`; `none` when a search does not end. -/
def emitSymbol (symbols : List DolRecompSymbol) (sections : List LoadedCodeSection) (x : Emission)
    (i : ℕ) : Option Emission :=
  match codeSize symbols sections i with
  | none => some x
  | some size =>
    match symbolNameToIdentifier (symbolAt symbols i).name baseSize with
    | none => some x
    | some base =>
      let identifier := truncated identifierSize base
      match identifierSetContains x.set x.emitted identifier with
      | none => none
      | some false => x.add ⟨i,size,identifier⟩
      | some true =>
        match suffixLoop x.set x.emitted base (symbolAt symbols i).address (symbols.length + 1) 0
        with
        | none => none
        | some none => some x
        | some (some identifier) => x.add ⟨i,size,identifier⟩

def macroPrefix : CString := text "DOLRECOMP_SYMBOL_"

/-- What the header defines, by name. -/
def definitions (symbols : List DolRecompSymbol) (emitted : List EmittedSymbol) :
    List (CString × BitVec 32) :=
  (macroPrefix ++ text "COUNT",BitVec.ofNat 32 emitted.length) :: emitted.flatMap fun item =>
    [(macroPrefix ++ item.identifier,(symbolAt symbols item.symbol).address),
      (macroPrefix ++ (text "SIZE_" ++ item.identifier),item.size)]

structure Header where
  ok : Bool
  emitted : List EmittedSymbol
  defines : List (CString × BitVec 32)

def emitSymbolDefinitions (map : Option DolRecompSymbolMap) (sections : List LoadedCodeSection) :
    Option Header :=
  match map with
  | none => some ⟨true,[],[]⟩
  | some map =>
    let count := countCodeSymbols map.symbols sections
    if count = 0 then some ⟨false,[],[]⟩
    else
      match identifierSetInit count with
      | none => some ⟨false,[],[]⟩
      | some set =>
        ((List.range map.symbols.length).foldlM (emitSymbol map.symbols sections) ⟨[],set⟩).map
          fun x => ⟨true,x.emitted,definitions map.symbols x.emitted⟩

end Symbols

end DolRecomp
