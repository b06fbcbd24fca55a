import FlatDecls.Json.Document
import FlatDecls.Word

/-!
# Decoding documents into types

Decoders walk a tree in reading order, and the first problem that they meet is the answer.
Three shapes cover all types:

* a *sequence* is an array;
* a *record* is an object whose known keys may come in any order and only once, or an array of
  the fields in order; fields that are not required may be left out, and unknown keys are
  passed over whatever their values say;
* a *variant* is an object with the name of a case as its only key, or, for a case that
  carries nothing, that name as a string.

At most `nestingLimit` containers may be open at once, values of unknown keys not counted.
Decoders of containers are told by `canOpen` whether one more may be opened; the number that
may still be opened is also what decoders of recursive types recurse on.
-/

namespace FlatDecls.Json

/-- Why a text has no value of the type asked for. -/
inductive DecodeError
  /-- The text is not JSON as far as it was read, or has a shape that no type has. -/
  | malformed (f : Fault)
  | mistyped (found : Found) (expected : String)
  | outOfRange (n : Int) (expected : String)
  | missingField (key : String)
  | duplicateField (key : String)
  | unknownVariant (name : String) (known : List String)
  /-- An array ends where the required field number `length` is due. -/
  | tooShort (length : Nat) (expected : String) (fields : Nat)
  deriving DecidableEq, Repr

/-- The sentence that reports a problem. -/
def DecodeError.message : DecodeError → String
  | malformed f => f.message
  | mistyped found expected => found.mismatch expected
  | outOfRange n expected => s!"invalid value: integer `{n}`, expected {expected}"
  | missingField key => s!"missing field `{key}`"
  | duplicateField key => s!"duplicate field `{key}`"
  | unknownVariant name known => s!"unknown variant `{name}`, " ++ expectedNames known
  | tooShort length expected fields =>
    s!"invalid length {length}, expected {expected} with {fields} elements"

/-- The outcome of decoding. -/
abbrev Decoded := Except DecodeError

/-- The number of containers that may be open at once. -/
def nestingLimit : Nat := 127

/-- The refusal of a text that is no JSON or fits no type. -/
def malformed (f : Fault) : Decoded α := .error (.malformed f)

/-- The report of a node in a place where it cannot stand: by its kind if it begins a value. -/
def Node.refuse (expected : String) (n : Node) : DecodeError :=
  match n.found with
  | .ok found => .mistyped found expected
  | .error f => .malformed f

/-- The reader in a place that no container can be opened to reach. -/
def tooDeep (_ : Node) : Decoded α := malformed .tooDeep

/-! ### Values without parts -/

/-- A text. -/
def text : Node → Decoded String
  | .atom (.string s) => .ok s
  | n => .error (n.refuse "a string")

/-- An integer in the range of a fixed-width type. -/
def integer (expected : String) (fit? : Int → Option α) : Node → Decoded α
  | .atom (.number m) =>
    match m.quantity with
    | .integer i =>
      match fit? i with
      | some a => .ok a
      | none => .error (.outOfRange i expected)
    | _ => .error ((Node.atom (.number m)).refuse expected)
  | n => .error (n.refuse expected)

/-- An unsigned 32-bit number. -/
def word32 : Node → Decoded UInt32 :=
  integer "u32" fun i ↦
    if fitsUnsigned 32 i then some (UInt32.ofNat i.toNat) else none

/-- An unsigned 64-bit number. -/
def word64 : Node → Decoded UInt64 :=
  integer "usize" fun i ↦
    if fitsUnsigned 64 i then some (UInt64.ofNat i.toNat) else none

/-- A signed 64-bit number. -/
def signed64 : Node → Decoded Int64 :=
  integer "i64" fun i ↦
    if fitsSigned 64 i then some (Int64.ofInt i) else none

/-- A value that may be absent, written as null then. -/
def optional (read : Node → Decoded α) : Node → Decoded (Option α)
  | .atom .null => .ok none
  | n => some <$> read n

/-! ### Sequences -/

/-- A sequence of values, each read by `item`. -/
def sequence (canOpen : Bool) (item : Node → Decoded α) : Node → Decoded (List α)
  | .array items => if canOpen then items.mapM item else malformed .tooDeep
  | n => .error (n.refuse "a sequence")

/-! ### Records -/

/-- A field of a record under construction: its key, whether it must be present, and how its
value is read into the record. -/
structure Slot (σ : Type) where
  key : String
  required : Bool
  read : Node → Decoded (σ → σ)

namespace Slot

/-- A field that must be present. -/
def mandatory (key : String) (read : Node → Decoded α) (put : α → σ → σ) : Slot σ :=
  ⟨key, true, fun n ↦ put <$> read n⟩

/-- A field that keeps its initial value when it is left out. -/
def defaulted (key : String) (read : Node → Decoded α) (put : α → σ → σ) : Slot σ :=
  ⟨key, false, fun n ↦ put <$> read n⟩

/-- The first required field that was not seen. -/
def firstMissing? (slots : List (Slot σ)) (seen : List String) : Option String :=
  (slots.find? fun s ↦ s.required && !seen.contains s.key).map (·.key)

/-- A record from the members of an object, after those with the keys `seen`. -/
def readMembers (slots : List (Slot σ)) (seen : List String) (record : σ) :
    List Member → Decoded σ
  | [] =>
    match firstMissing? slots seen with
    | some key => .error (.missingField key)
    | none => .ok record
  | .pair (.name key) n :: rest =>
    match slots.find? (·.key == key) with
    | none =>
      match n.passedFault? with
      | none => readMembers slots seen record rest
      | some f => malformed f
    | some slot =>
      if seen.contains key then .error (.duplicateField key)
      else do
        let put ← slot.read n
        readMembers slots (key :: seen) (put record) rest
  | .pair (.loneSurrogate f) _ :: _ => malformed f
  | .missing b :: _ => malformed b.fault

/-- The fault of what follows the last field of a record in its array form, instead of the
closing bracket. -/
def surplusFault : Node → Fault
  | .missing ⟨.firstItem, none⟩ => .endInArray
  | .missing ⟨.nextItem, some .closeArray⟩ => .trailingComma
  | .missing ⟨.itemEnd, none⟩ => .endInArray
  | _ => .trailing

/-- A record from the items of an array, where `i` items were read already. -/
def readItems (expected : String) (fields : Nat) :
    (i : Nat) → List (Slot σ) → σ → List Node → Decoded σ
  | _, [], record, [] => .ok record
  | _, [], _, n :: _ => malformed (surplusFault n)
  | i, slot :: slots, record, n :: rest => do
    let put ← slot.read n
    readItems expected fields (i + 1) slots (put record) rest
  | i, slot :: slots, record, [] =>
    if slot.required then .error (.tooShort i expected fields)
    else readItems expected fields (i + 1) slots record []

end Slot

/-- A record with the given fields, which begins as `initial`. -/
def record (canOpen : Bool) (expected : String) (slots : List (Slot σ)) (initial : σ) :
    Node → Decoded σ
  | .object members =>
    if canOpen then Slot.readMembers slots [] initial members else malformed .tooDeep
  | .array items =>
    if canOpen then Slot.readItems expected slots.length 0 slots initial items
    else malformed .tooDeep
  | n => .error (n.refuse expected)

/-! ### Variants -/

/-- What a case of a variant carries. -/
inductive Payload (α : Type)
  | nothing (value : α)
  | value (read : Node → Decoded α)
  | fields (read : Node → Decoded α)

/-- A case of a variant. -/
structure Case (α : Type) where
  name : String
  payload : Payload α

namespace Case

/-- The case with this name. -/
def select (cases : List (Case α)) (name : String) : Decoded (Case α) :=
  match cases.find? (·.name == name) with
  | some c => .ok c
  | none => .error (.unknownVariant name (cases.map (·.name)))

/-- A case given by its name alone. -/
def bare (c : Case α) : Decoded α :=
  match c.payload with
  | .nothing a => .ok a
  | .value _ => .error (.mistyped .bareCase "newtype variant")
  | .fields _ => .error (.mistyped .bareCase "struct variant")

/-- A case given by its name and a value. -/
def apply (c : Case α) (n : Node) : Decoded α :=
  match c.payload with
  | .nothing a =>
    match n with
    | .atom .null => .ok a
    | _ => .error (n.refuse "unit")
  | .value read => read n
  | .fields read => read n

/-- The fault of a token in the place of a variant. -/
def tokenFault : Token → Fault
  | .unreadable true d => d.needed
  | _ => .expectedValue

/-- The fault of what follows the only member of a variant, instead of the closing brace. -/
def surplusFault : Member → Fault
  | .missing ⟨.memberEnd, none⟩ => .endInObject
  | _ => .expectedValue

/-- A case from the members of an object. The name is judged before the value is looked at,
and nothing may follow the value. -/
def readMembers (cases : List (Case α)) : List Member → Decoded α
  | [] => malformed .expectedValue
  | .missing b :: _ => malformed b.fault
  | .pair (.loneSurrogate f) _ :: _ => malformed f
  | .pair (.name name) n :: rest => do
    let a ← (← select cases name).apply n
    match rest with
    | [] => return a
    | m :: _ => malformed (surplusFault m)

end Case

/-- A variant with the given cases. -/
def variant (canOpen : Bool) (cases : List (Case α)) : Node → Decoded α
  | .atom (.string name) => do (← Case.select cases name).bare
  | .atom (.loneSurrogate f) => malformed f
  | .object members =>
    if canOpen then Case.readMembers cases members else malformed .tooDeep
  | .missing b => malformed (b.faultBy Case.tokenFault)
  | _ => malformed .expectedValue

/-! ### Whole texts -/

/-- The value of a whole text. -/
def decode (read : Node → Decoded α) (text : String) : Decoded α := do
  let document := Document.read text
  let a ← read document.root
  if document.trailing then malformed .trailing else return a

end FlatDecls.Json
