import FlatDecls.Json.Token

/-!
# Documents

The tree of a JSON text, as far as the text can be read. Where the text breaks off or breaks
the rules the tree holds a break in the place of the value or member that was due, every open
array and object ends there, and the rest of the text is not looked at. So a tree lists, in
reading order, what a decoder meets, and a decoder that walks it from left to right meets a
fault exactly where a reader of the text would.

A break records what was due and what stood there, since it is up to the decoder which fault
that is. The tree is built by one pass over the tokens with a stack of open containers; there
is no limit on nesting here.
-/

namespace FlatDecls.Json

/-! ### Breaks -/

/-- What was due where a text breaks off. -/
inductive Due
  | value
  /-- An item or the closing bracket, right behind the opening one. -/
  | firstItem
  | nextItem
  | itemEnd
  /-- A key or the closing brace, right behind the opening one. -/
  | firstKey
  | nextKey
  | colon
  | memberEnd
  deriving DecidableEq, Repr

/-- A place where a text breaks off: what was due there, and the token that stands there
instead, if it is not the end of the text. -/
structure Break where
  due : Due
  token : Option Token
  deriving DecidableEq, Repr

/-- The fault of a reader that needs the value that would begin with this token. -/
def Token.fault : Token → Fault
  | unreadable _ d => d.needed
  | _ => .expectedValue

/-- The fault of a reader that passes over the value that would begin with this token. -/
def Token.passedFault : Token → Fault
  | unreadable _ d => d.passed
  | _ => .expectedValue

/-- The fault of this token in the place of a key; only keys that begin as strings are read. -/
def Token.keyFault (unread : Defect → Fault) : Token → Fault
  | unreadable true d => unread d
  | _ => .keyNotString

namespace Break

/-- The fault of a reader that needs what is due; `begins` judges a token in the place of a
value. -/
def faultBy (begins : Token → Fault) : Break → Fault
  | ⟨.value, none⟩ => .endInValue
  | ⟨.value, some t⟩ => begins t
  | ⟨.firstItem, none⟩ => .endInArray
  | ⟨.firstItem, some t⟩ => begins t
  | ⟨.nextItem, none⟩ => .endInValue
  | ⟨.nextItem, some .closeArray⟩ => .trailingComma
  | ⟨.nextItem, some t⟩ => begins t
  | ⟨.itemEnd, none⟩ => .endInArray
  | ⟨.itemEnd, some _⟩ => .expectedItemEnd
  | ⟨.firstKey, none⟩ => .endInObject
  | ⟨.firstKey, some t⟩ => t.keyFault Defect.needed
  | ⟨.nextKey, none⟩ => .endInValue
  | ⟨.nextKey, some .closeObject⟩ => .trailingComma
  | ⟨.nextKey, some t⟩ => t.keyFault Defect.needed
  | ⟨.colon, none⟩ => .endInObject
  | ⟨.colon, some _⟩ => .expectedColon
  | ⟨.memberEnd, none⟩ => .endInObject
  | ⟨.memberEnd, some _⟩ => .expectedMemberEnd

/-- The fault of a reader that needs what is due. -/
def fault : Break → Fault := faultBy Token.fault

/-- The fault of a reader that passes over what is due. It does not tell a comma before a
closing bracket or brace from other places where an item or key is due. -/
def passedFault : Break → Fault
  | ⟨.nextItem, some t⟩ => t.passedFault
  | ⟨.firstKey, some t⟩ => t.keyFault Defect.passed
  | ⟨.nextKey, none⟩ => .endInObject
  | ⟨.nextKey, some t⟩ => t.keyFault Defect.passed
  | b => b.faultBy Token.passedFault

end Break

/-! ### Trees -/

/-- The string in the place of an object's key. -/
inductive Key
  | name (s : String)
  /-- A string that stands for no text. -/
  | loneSurrogate (f : Fault)
  deriving DecidableEq, Repr

mutual

/-- A value as far as it can be read. -/
inductive Node
  | atom (a : Atom)
  | array (items : List Node)
  | object (members : List Member)
  /-- A value was due, but none can be read here. -/
  | missing (b : Break)

/-- A member of an object as far as it can be read. -/
inductive Member
  | pair (key : Key) (value : Node)
  /-- A member or the end of the object was due, but none can be read here. -/
  | missing (b : Break)

end

/-- The description of a value without parts, or why it has none. -/
def Atom.found : Atom → Except Fault Found
  | null => .ok .null
  | boolean b => .ok (.boolean b)
  | number n =>
    match n.quantity.found? with
    | some found => .ok found
    | none => .error .numberTooLarge
  | string s => .ok (.string s)
  | loneSurrogate f => .error f

/-- The description of a value, told from its beginning, or why it has none. -/
def Node.found : Node → Except Fault Found
  | atom a => a.found
  | array _ => .ok .sequence
  | object _ => .ok .map
  | missing b => .error b.fault

mutual

/-- The fault that a reader meets who passes over a value. Numbers without a value and lone
surrogates do not matter to it. -/
def Node.passedFault? : Node → Option Fault
  | .atom _ => none
  | .array items => passedItemFault? items
  | .object members => passedMemberFault? members
  | .missing b => some b.passedFault

/-- The fault that a reader meets who passes over these items. -/
def passedItemFault? : List Node → Option Fault
  | [] => none
  | n :: rest => n.passedFault?.or (passedItemFault? rest)

/-- The fault that a reader meets who passes over these members. -/
def passedMemberFault? : List Member → Option Fault
  | [] => none
  | .pair _ n :: rest => n.passedFault?.or (passedMemberFault? rest)
  | .missing b :: _ => some b.passedFault

end

/-! ### Reading -/

/-- An open container whose next value is due, with what was read of it in reverse. -/
inductive Frame
  | array (items : List Node)
  | object (members : List Member) (key : Key)

/-- How far reading has come, and what is due. Lists are in reverse. -/
inductive Reading
  /-- The whole value, or a member's. -/
  | value (outer : List Frame)
  | firstItem (outer : List Frame)
  /-- An item behind a comma; one at least was read. -/
  | nextItem (items : List Node) (outer : List Frame)
  | itemEnd (items : List Node) (outer : List Frame)
  | firstKey (outer : List Frame)
  | nextKey (members : List Member) (outer : List Frame)
  | colon (members : List Member) (key : Key) (outer : List Frame)
  | memberEnd (members : List Member) (outer : List Frame)
  | done (root : Node)

/-- A text that was read to its end or as far as possible. -/
structure Document where
  root : Node
  /-- Does anything but blanks follow the value? -/
  trailing : Bool := false

namespace Reading

/-- A value takes its place in the innermost open container. -/
def deliver : List Frame → Node → Reading
  | [], n => done n
  | .array items :: outer, n => itemEnd (n :: items) outer
  | .object members key :: outer, n => memberEnd (.pair key n :: members) outer

/-- Closes all open containers around a last value. -/
def unwind : List Frame → Node → Node
  | [], n => n
  | .array items :: outer, n => unwind outer (.array (n :: items).reverse)
  | .object members key :: outer, n => unwind outer (.object (.pair key n :: members).reverse)

/-- The tree when an array breaks off. -/
def breakItems (items : List Node) (outer : List Frame) (b : Break) : Document :=
  ⟨unwind outer (.array (.missing b :: items).reverse), false⟩

/-- The tree when an object breaks off between values. -/
def breakMembers (members : List Member) (outer : List Frame) (b : Break) : Document :=
  ⟨unwind outer (.object (.missing b :: members).reverse), false⟩

/-- The tree when nothing more can be read, since this token or the end of the text stands
here. -/
def breakOff (token : Option Token) : Reading → Document
  | value outer => ⟨unwind outer (.missing ⟨.value, token⟩), false⟩
  | firstItem outer => breakItems [] outer ⟨.firstItem, token⟩
  | nextItem items outer => breakItems items outer ⟨.nextItem, token⟩
  | itemEnd items outer => breakItems items outer ⟨.itemEnd, token⟩
  | firstKey outer => breakMembers [] outer ⟨.firstKey, token⟩
  | nextKey members outer => breakMembers members outer ⟨.nextKey, token⟩
  | colon members key outer =>
    ⟨unwind (.object members key :: outer) (.missing ⟨.colon, token⟩), false⟩
  | memberEnd members outer => breakMembers members outer ⟨.memberEnd, token⟩
  | done root => ⟨root, token.isSome⟩

/-- The state after a token that begins a value. -/
def beginValue? (outer : List Frame) : Token → Option Reading
  | .atom a => some (deliver outer (.atom a))
  | .openArray => some (firstItem outer)
  | .openObject => some (firstKey outer)
  | _ => none

/-- The state after a token that is a key. -/
def beginMember? (members : List Member) (outer : List Frame) : Token → Option Reading
  | .atom (.string s) => some (colon members (.name s) outer)
  | .atom (.loneSurrogate f) => some (colon members (.loneSurrogate f) outer)
  | _ => none

/-- The state after a token, unless the token is out of place. -/
def step? : Reading → Token → Option Reading
  | value outer, t => beginValue? outer t
  | firstItem outer, .closeArray => some (deliver outer (.array []))
  | firstItem outer, t => beginValue? (.array [] :: outer) t
  | nextItem items outer, t => beginValue? (.array items :: outer) t
  | itemEnd items outer, .comma => some (nextItem items outer)
  | itemEnd items outer, .closeArray => some (deliver outer (.array items.reverse))
  | firstKey outer, .closeObject => some (deliver outer (.object []))
  | firstKey outer, t => beginMember? [] outer t
  | nextKey members outer, t => beginMember? members outer t
  | colon members key outer, .colon => some (value (.object members key :: outer))
  | memberEnd members outer, .comma => some (nextKey members outer)
  | memberEnd members outer, .closeObject =>
    some (deliver outer (.object members.reverse))
  | _, _ => none

/-- The tree of the tokens that are left. -/
def run (s : Reading) : List Token → Document
  | [] => s.breakOff none
  | t :: rest =>
    match s.step? t with
    | some s => run s rest
    | none => s.breakOff (some t)

end Reading

/-- The tree of a text. -/
def Document.read (text : String) : Document :=
  Reading.run (.value []) (tokens text)

end FlatDecls.Json
