import Leani.Filtering.Scope
import Leani.Library.ContractAbi
import Leani.Library.Texts

/-!
# Event ABI fragments

Parsing event fragments, decoding logs strictly, and rendering decoded values as exact strings. The
ABI coder, and the resolution of type names, are those of a library.
-/

namespace Leani.EvmEvents

open Library Std

def maxNesting : Nat := 6

def maxElementValues : Nat := 64

def usizeMax : Nat := 2 ^ 64 - 1

def isizeMax : Nat := 2 ^ 63 - 1

def checkedAdd (a b : Nat) : Option Nat := if a + b ≤ usizeMax then some (a + b) else none

def checkedMul (a b : Nat) : Option Nat := if a * b ≤ usizeMax then some (a * b) else none

def saturatingAdd (a b : Nat) : Nat := min (a + b) usizeMax

def saturatingMul (a b : Nat) : Nat := min (a * b) usizeMax

inductive AbiKind where
  | address
  | uint (bits : Nat)
  | int (bits : Nat)
  | bool
  | fixedBytes (size : Nat)
  deriving DecidableEq

inductive AbiType where
  | word (kind : AbiKind)
  | bytes
  | string
  | array (element : AbiType) (size : Option Nat)
  | tuple (components : List (String × AbiType))

structure AbiField where
  name : String
  ty : AbiType
  indexed : Bool

inductive DynSolType where
  | bool
  | int (size : Nat)
  | uint (size : Nat)
  | fixedBytes (size : Nat)
  | address
  | function
  | bytes
  | string
  | array (element : DynSolType)
  | fixedArray (element : DynSolType) (size : Nat)
  | tuple (types : List DynSolType)

/-- `DynSolValue`, of which a value type is known by its word. -/
inductive DynSolValue where
  | word (word : List UInt8)
  | bytes (bytes : List UInt8)
  | array (items : List DynSolValue)
  | fixedArray (items : List DynSolValue)
  | tuple (items : List DynSolValue)

structure Param where
  ty : String
  name : String
  components : List Param

structure EventParam extends Param where
  indexed : Bool

structure Event where
  name : String
  inputs : List EventParam
  anonymous : Bool

structure Alloy where
  resolve : Param → Except String DynSolType
  display : DynSolType → String
  isDynamic : DynSolType → Bool
  minimumWords : DynSolType → Nat
  abiDecodeSequence : DynSolType → List UInt8 → Except String DynSolValue
  abiEncodeSequence : DynSolValue → Option (List UInt8)

def tooDeep : String := s!"event ABI nests arrays and tuples more than {maxNesting} levels deep"

mutual

/-- Whether a type nests arrays and tuples at most `maxNesting` levels. -/
def shallow : Param → Nat → Bool
  | ⟨ty, _, components⟩, depth =>
    let depth := saturatingAdd (saturatingAdd depth (ty.toList.count '['))
      (if components.isEmpty then 0 else 1)
    decide (depth ≤ maxNesting) && allShallow components depth

def allShallow : List Param → Nat → Bool
  | [], _ => true
  | param :: params, depth => shallow param depth && allShallow params depth

end

def validIdentifier (value : String) : Bool :=
  match value.toList with
  | [] => false
  | first :: rest => (first.isAlpha || first = '_') && rest.all fun c => c.isAlphanum || c = '_'

def fieldName (name ty : String) : Except String String := do
  ensure (name ≠ "") s!"event parameter `{ty}` must be `type name` or `type indexed name`"
  ensure (validIdentifier name = true) "event field name is not a Solidity identifier"
  pure name

def width (bits : Nat) : Except String Nat := do
  ensure (bits < 2 ^ 16) s!"integer ABI width {bits} is invalid"
  pure bits

mutual

def abiType (alloy : Alloy) : DynSolType → List Param → Except String AbiType
  | .address, _ => pure (.word .address)
  | .bool, _ => pure (.word .bool)
  | .uint bits, _ => do pure (.word (.uint (← width bits)))
  | .int bits, _ => do pure (.word (.int (← width bits)))
  | .fixedBytes size, _ => do
    ensure (size < 256) s!"unsupported ABI type `{alloy.display (.fixedBytes size)}`"
    pure (.word (.fixedBytes size))
  | .bytes, _ => pure .bytes
  | .string, _ => pure .string
  | .array element, components => do pure (.array (← abiType alloy element components) none)
  | .fixedArray element size, components => do
    ensure (size ≠ 0) s!"ABI type `{alloy.display (.fixedArray element size)}` has no elements"
    pure (.array (← abiType alloy element components) (some size))
  | .tuple types, components => do
    ensure (types ≠ [] ∧ types.length = components.length)
      s!"tuple ABI type `{alloy.display (.tuple types)}` needs named components"
    let fields ← abiTypes alloy types components
    ensure (fields.map Prod.fst).Nodup "tuple component names must be unique"
    pure (.tuple fields)
  | .function, _ => throw s!"unsupported ABI type `{alloy.display .function}`"

def abiTypes (alloy : Alloy) : List DynSolType → List Param → Except String (List (String × AbiType))
  | ty :: types, component :: components => do
    let name ← fieldName component.name component.ty
    let ty ← abiType alloy ty component.components
    let fields ← abiTypes alloy types components
    pure ((name, ty) :: fields)
  | _, _ => pure []

end

mutual

/-- `decode_type`. A string decodes as bytes, which keeps invalid UTF-8 exact for the re-encoding
check. -/
def AbiType.decodeType : AbiType → DynSolType
  | .word .address => .address
  | .word (.uint bits) => .uint bits
  | .word (.int bits) => .int bits
  | .word .bool => .bool
  | .word (.fixedBytes size) => .fixedBytes size
  | .bytes | .string => .bytes
  | .array element none => .array element.decodeType
  | .array element (some size) => .fixedArray element.decodeType size
  | .tuple components => .tuple (decodeTypes components)

def decodeTypes : List (String × AbiType) → List DynSolType
  | [] => []
  | (_, ty) :: components => ty.decodeType :: decodeTypes components

end

mutual

def templateSize : DynSolType → Nat
  | .array element => saturatingAdd (templateSize element) 1
  | .fixedArray element size => saturatingAdd (saturatingMul (templateSize element) size) 1
  | .tuple types => templateSizes 1 types
  | _ => 1

def templateSizes (total : Nat) : List DynSolType → Nat
  | [] => total
  | ty :: types => templateSizes (saturatingAdd total (templateSize ty)) types

end

mutual

/-- Whether every dynamic array's element holds at most `maxElementValues`. -/
def elementsFit : DynSolType → Bool
  | .array element => templateSize element ≤ maxElementValues
  | .fixedArray element _ => elementsFit element
  | .tuple types => allElementsFit types
  | _ => true

def allElementsFit : List DynSolType → Bool
  | [] => true
  | ty :: types => elementsFit ty && allElementsFit types

end

structure EventAbi where
  name : String
  fields : List AbiField
  body : DynSolType

def parseInput (alloy : Alloy) (input : EventParam) : Except String AbiField := do
  ensure (shallow input.toParam 0 = true) tooDeep
  let resolved ← (alloy.resolve input.toParam).mapError
    fun error => s!"event parameter `{input.ty}`: {error}"
  pure ⟨← fieldName input.name input.ty, ← abiType alloy resolved input.components, input.indexed⟩

def parse (alloy : Alloy) (event : Event) : Except String EventAbi := do
  ensure (event.anonymous = false)
    "anonymous events are not supported; `abi = \"log0\"` stores topicless logs raw"
  ensure (validIdentifier event.name = true) "event name is not a Solidity identifier"
  let fields ← event.inputs.mapM (parseInput alloy)
  ensure (fields.map AbiField.name).Nodup "event field names must be unique"
  ensure ((fields.filter AbiField.indexed).length ≤ 3)
    "an event cannot contain more than three indexed fields"
  let body := .tuple ((fields.filter fun field => !field.indexed).map fun field =>
    field.ty.decodeType)
  ensure (elementsFit body = true)
    (s!"event ABI array elements may hold at most {maxElementValues} values, " ++
      "counting each nested array and tuple as one")
  pure ⟨event.name, fields, body⟩

def AbiKind.canonical : AbiKind → String
  | address => "address"
  | uint bits => s!"uint{bits}"
  | int bits => s!"int{bits}"
  | bool => "bool"
  | fixedBytes size => s!"bytes{size}"

mutual

def AbiType.canonical : AbiType → String
  | .word kind => kind.canonical
  | .bytes => "bytes"
  | .string => "string"
  | .array element none => s!"{element.canonical}[]"
  | .array element (some size) => s!"{element.canonical}[{size}]"
  | .tuple components => "(" ++ ",".intercalate (canonicals components) ++ ")"

def canonicals : List (String × AbiType) → List String
  | [] => []
  | (_, ty) :: components => ty.canonical :: canonicals components

end

def EventAbi.signature (abi : EventAbi) : String :=
  abi.name ++ "(" ++ ",".intercalate (abi.fields.map fun field => field.ty.canonical) ++ ")"

mutual

def AbiType.keys (name : String) : AbiType → List String
  | .tuple components => componentKeys name components
  | _ => [name]

def componentKeys (name : String) : List (String × AbiType) → List String
  | [] => []
  | (component, ty) :: components =>
    ty.keys (name ++ "." ++ component) ++ componentKeys name components

end

def AbiField.keys (field : AbiField) : List String :=
  if field.indexed then [field.name] else field.ty.keys field.name

def EventAbi.valueKeys (abi : EventAbi) : ExtTreeSet String :=
  .ofList (abi.fields.flatMap AbiField.keys)

/-- `length`: an offset or length word, if it fits `usize`. -/
def length (data : List UInt8) (at_ : Nat) : Option Nat := do
  let stop ← checkedAdd at_ 32
  if stop ≤ data.length then
    let n := BigEndian.number ((data.drop at_).take 32)
    if n ≤ usizeMax then some n else none
  else none

structure LayoutItem where
  dynamic : Bool
  headSize : Nat
  encodedLen : Nat → Option Nat

def sequenceLoop (data : List UInt8) (base : Nat) : List LayoutItem → Nat → Nat → Option Nat
  | [], _, tail => some tail
  | item :: items, head, tail =>
    if item.dynamic then do
      let offset ← length data head
      if offset = tail then
        let size ← item.encodedLen (← checkedAdd base tail)
        let tail ← checkedAdd tail size
        sequenceLoop data base items (saturatingAdd head item.headSize) tail
      else none
    else sequenceLoop data base items (saturatingAdd head item.headSize) tail

/-- Check the heads of a tuple's components or an array's elements at `base`, then their tails in
order: the length of both. -/
def sequence (data : List UInt8) (items : List LayoutItem) (heads base : Nat) : Option Nat := do
  let stop ← checkedAdd base heads
  -- Every head takes at least one word, so heads that fit bound the loop by the log's size.
  if stop ≤ data.length then sequenceLoop data base items base heads else none

def headSize (alloy : Alloy) (ty : DynSolType) : Nat :=
  if alloy.isDynamic ty then 32 else saturatingMul (alloy.minimumWords ty) 32

def headSizes (alloy : Alloy) (types : List DynSolType) : Option Nat :=
  types.foldlM (fun total ty => checkedAdd total (headSize alloy ty)) 0

mutual

/-- Length of the tuple, array, `bytes` or `string` encoded at `at_`, if the data lays it out as
Solidity's encoder does. -/
def encodedLen (alloy : Alloy) (data : List UInt8) : DynSolType → Nat → Option Nat
  | .bytes, at_ | .string, at_ => do
    let length ← length data at_
    let size ← checkedAdd (← checkedAdd length ((32 - length % 32) % 32)) 32
    if (← checkedAdd at_ size) ≤ data.length then some size else none
  | .array element, at_ => do
    let count ← length data at_
    let heads ← checkedMul count (headSize alloy element)
    let item := ⟨alloy.isDynamic element, headSize alloy element, encodedLen alloy data element⟩
    let elements ← sequence data (List.replicate count item) heads (← checkedAdd at_ 32)
    checkedAdd elements 32
  | .fixedArray element count, at_ => do
    let heads ← checkedMul count (headSize alloy element)
    let item := ⟨alloy.isDynamic element, headSize alloy element, encodedLen alloy data element⟩
    sequence data (List.replicate count item) heads at_
  | .tuple types, at_ => do
    let heads ← headSizes alloy types
    sequence data (layoutItems alloy data types) heads at_
  -- Value types sit in their parent's head.
  | _, _ => none

def layoutItems (alloy : Alloy) (data : List UInt8) : List DynSolType → List LayoutItem
  | [] => []
  | ty :: types =>
    ⟨alloy.isDynamic ty, headSize alloy ty, encodedLen alloy data ty⟩ :: layoutItems alloy data types

end

def signed (word : List UInt8) : Int :=
  let n := BigEndian.number word
  if n < 2 ^ 255 then n else n - 2 ^ 256

def hexText (bytes : List UInt8) : String := String.ofList ('0' :: 'x' :: Hex.encode bytes)

/-- `decode_word`: render one value word; a word its type cannot encode is rejected. -/
def decodeWord (kind : AbiKind) (word : List UInt8) : Except String String :=
  match kind with
  | .address => do
    ensure ((word.take 12).all (· = 0) = true) "address contains non-zero ABI padding"
    pure (hexText (word.drop 12))
  | .uint bits => do
    ensure ((word.take ((256 - bits) / 8)).all (· = 0) = true)
      s!"uint{bits} value exceeds its declared width"
    pure (BigEndian.number word).repr
  | .int bits => do
    let padding := (256 - bits) / 8
    let expected : UInt8 := if 128 ≤ (word.getD padding 0).toNat then 0xff else 0
    ensure ((word.take padding).all (· = expected) = true) s!"int{bits} value is not sign-extended"
    pure (signed word).repr
  | .bool =>
    if BigEndian.number word = 0 then pure "false"
    else if BigEndian.number word = 1 then pure "true"
    else throw "bool ABI value must be zero or one"
  | .fixedBytes size => do
    ensure ((word.drop size).all (· = 0) = true) "fixed bytes value contains non-zero ABI padding"
    pure (hexText (word.take size))

def leaf : AbiType → DynSolValue → Except String String
  | .word kind, .word word => decodeWord kind word
  | .word _, _ => throw "a value word is missing"
  | .bytes, .bytes bytes => pure (hexText bytes)
  | .string, .bytes bytes => pure (String.ofList (Utf8.lossy bytes))
  | _, _ => throw "a decoded value does not match its ABI type"

mutual

def writeJson : AbiType → DynSolValue → Except String (List Char)
  | .array element _, .array items | .array element _, .fixedArray items => do
    let texts ← items.mapM (writeJson element)
    pure ('[' :: ([','].intercalate texts ++ [']']))
  | .tuple components, .tuple items => do
    let texts ← writeMembers components items
    pure ('\x7b' :: ([','].intercalate texts ++ ['\x7d']))
  | ty, value => do pure (Json.quote (← leaf ty value).toList)

def writeMembers : List (String × AbiType) → List DynSolValue → Except String (List (List Char))
  | (component, ty) :: components, item :: items => do
    let text ← writeJson ty item
    let texts ← writeMembers components items
    pure ((Json.quote component.toList ++ ':' :: text) :: texts)
  | _, _ => pure []

end

mutual

/-- Render a value that is not indexed: a tuple flattens to `name.component` keys, an array becomes
JSON text, and anything else one exact string. -/
def render (name : String) : AbiType → DynSolValue → Table String String →
    Except String (Table String String)
  | .tuple components, .tuple items, values => renderComponents name components items values
  | .array element size, value, values => do
    let json ← writeJson (.array element size) value
    pure (values.insert name (String.ofList json))
  | ty, value, values => do pure (values.insert name (← leaf ty value))

def renderComponents (name : String) : List (String × AbiType) → List DynSolValue →
    Table String String → Except String (Table String String)
  | (component, ty) :: components, item :: items, values => do
    let values ← render (name ++ "." ++ component) ty item values
    renderComponents name components items values
  | _, _, values => pure values

end

def topicText (ty : AbiType) (topic : List UInt8) : Except String String :=
  match ty with
  | .word kind => decodeWord kind topic
  | _ => pure (hexText topic)

def decodeFields : List AbiField → List Filtering.Topic → List DynSolValue → Table String String →
    Except String (Table String String)
  | [], _, _, values => pure values
  | field :: fields, topics, body, values =>
    if field.indexed then
      match topics with
      | [] => throw "a topic is missing"
      | topic :: topics => do
        let value ← topicText field.ty topic.toList
        decodeFields fields topics body (values.insert field.name value)
    else
      match body with
      | [] => throw "a data value is missing"
      | value :: body => do
        let values ← render field.name field.ty value values
        decodeFields fields topics body values

def EventAbi.decode (abi : EventAbi) (alloy : Alloy) (topics : List Filtering.Topic)
    (data : List UInt8) : Except String (Table String String) := do
  let indexed := (abi.fields.filter AbiField.indexed).length
  ensure (topics.length = indexed + 1) s!"expected {indexed + 1} topics, received {topics.length}"
  ensure (encodedLen alloy data abi.body 0 = some data.length)
    "log data is not the canonical ABI layout"
  let body ← alloy.abiDecodeSequence abi.body data
  ensure (alloy.abiEncodeSequence body = some data) "log data is not the canonical ABI encoding"
  match body with
  | .tuple body => decodeFields abi.fields (topics.drop 1) body ∅
  | _ => throw "log data did not decode as a tuple"

end Leani.EvmEvents
