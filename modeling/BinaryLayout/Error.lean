import BinaryLayout.Path
import BinaryLayout.Text.Quoted
import BinaryLayout.Source.Error

/-!
# Errors and warnings

An error is a cause together with the path of the atom that failed; only a faulty schema has no
atom. Whoever finds the fault knows little of where it stands, so an error starts with a short path,
or none, and `Error.within` lengthens it at the front on the way out.

A warning is an oddity that loading survives. It names its atom by a complete path.

## Main definitions

* `InitializationFault`, `DecodeFault`, `ValueFault`, `SchemaFault`: the causes, by kind.
* `Error`: a cause and the path of its atom.
* `Error.within`, `Error.asInitialization`: how containers pass an error on.
* `Warning`: what loading survives.
* `Error.message`, `Warning.message`: the texts.
-/

namespace BinaryLayout

/-- Why an atom got no content. -/
inductive InitializationFault where
  /-- A reason given by a rule of the layout. -/
  | reason (text : String)
  | charactersOverflow (count : Nat)
  | noBitPosition (offset : Nat)
  | longVarint
  | unterminatedText (limit : Nat)
  | lengthOutOfRange
  | unknownSize (typeName : String)
  | bitAtomAlone
  | byteAtomAmongBits
  | elementLimit (limit : Nat)
  | nestingLimit (limit : Nat)
  | emptyHost
  | dependentField (cause : String)
  | pointerNotLoaded
  | noParent
  | addressOutOfRange (address : Int)
  | fieldNotLoaded (name : String)
  | noScalarContent
  | notInitialized
  deriving DecidableEq, Repr

/-- Why bytes stand for no value. -/
inductive DecodeFault where
  /-- A reason given by a rule of the layout. -/
  | reason (text : String)
  | notAscii (byte : UInt8) (index : Nat)
  | invalidUtf8 (length index : Nat)
  | incompleteUtf8 (index : Nat)
  | oddUtf16
  | unpairedSurrogate (unit : Nat)
  | varintOverflow
  | varintUnfinished
  deriving DecidableEq, Repr

/-- Why a value was refused or an atom has no such value. -/
inductive ValueFault where
  /-- A reason given by a rule of the layout. -/
  | reason (text : String)
  | integerRange (value : Int) (signed : Bool) (width : Nat)
  | bitRange (value : Int) (bits : Nat)
  | wordRange (name : String) (value : Int)
  | outOfRange (number : String)
  | notAscii (c : Char)
  | textTooLong (count capacity : Nat)
  | charactersOverflow (count : Nat)
  | mismatch (expected kind : String)
  | byteCount (expected got : Nat)
  | elementCount (expected got : Nat)
  | bitCount (expected got : Nat)
  | notSigned (kind : String)
  | notUnsigned (kind : String)
  | notNumber
  | notInteger
  | notText (typeName : String)
  | notBits
  | notPointer (typeName : String)
  | noInverse
  | bitAtomCopied
  | notOutermost
  | badIndex (segment : String)
  | notWord (value : Int)
  | noCase (value : Int)
  | arithmeticOverflow
  deriving DecidableEq, Repr

/-- Why a layout or a registry is malformed. -/
inductive SchemaFault where
  /-- A reason given by a rule of the layout. -/
  | reason (text : String)
  | integerWidth (width : Nat)
  | fractionBits (fraction bits : Nat)
  | zeroAlignment
  | attributeWithoutField (record keyword : String)
  | duplicateField (record field : String)
  | duplicateBitField (record field : String)
  | duplicateMember (union member : String)
  | memberWithoutSize (union member typeName : String)
  | unionTooSmall (union : String) (size largest : Nat)
  | tagDefined (registry tag : String)
  | tagClash (registry tag other : String)
  deriving DecidableEq, Repr

/-- What went wrong at an atom. -/
inductive Problem where
  | source (cause : SourceError)
  /-- The source ended before the atom did. -/
  | consume (offset desired got : Nat)
  | initialization (fault : InitializationFault)
  | decode (fault : DecodeFault)
  | nullDereference
  | unterminatedArray (count : Nat)
  | notFound (key : String)
  | value (fault : ValueFault)
  deriving DecidableEq, Repr

/-- A problem at an atom, or a malformed schema. -/
inductive Error where
  | located (path : Path) (problem : Problem)
  | schema (fault : SchemaFault)
  deriving DecidableEq, Repr

/-- What loading survives. -/
inductive Warning where
  /-- A text's bytes were kept but do not decode. -/
  | decode (path : Path) (cause : String)
  /-- The source ended before the array's terminator. -/
  | unterminatedArray (path : Path) (count : Nat)
  /-- A constant was read with other bytes than its own. -/
  | constantMismatch (path : Path) (expected found : Bytes)
  /-- Bytes at the end of a block array that make no further element. -/
  | leftover (path : Path) (bytes : Nat)
  deriving DecidableEq, Repr

/-- The text of a cause. -/
def InitializationFault.message : InitializationFault → String
  | reason text => text
  | charactersOverflow count => s!"{count} characters overflow the address space"
  | noBitPosition offset => "offset " ++ Hex.number offset ++ " has no bit position"
  | longVarint => "LEB128 value longer than 19 bytes"
  | unterminatedText limit => s!"no terminator within {limit} characters"
  | lengthOutOfRange => "string length prefix out of range"
  | unknownSize typeName => s!"size of {typeName} depends on content that is not loaded"
  | bitAtomAlone => "bit atoms load through their host"
  | byteAtomAmongBits => "byte atom inside a bit tree"
  | elementLimit limit => s!"more than {limit} elements"
  | nestingLimit limit => s!"more than {limit} nested layouts"
  | emptyHost => "bit host has no content"
  | dependentField cause => "dependent field cannot follow the change: " ++ cause
  | pointerNotLoaded => "pointer is not loaded"
  | noParent => "relative pointer has no parent"
  | addressOutOfRange address => s!"address {address} is out of range"
  | fieldNotLoaded name => "field " ++ Text.quoted name ++ " is read before it is loaded"
  | noScalarContent => "atom has no scalar content"
  | notInitialized => "atom is not initialized"

/-- The text of a cause. -/
def DecodeFault.message : DecodeFault → String
  | reason text => text
  | notAscii byte index => "byte 0x" ++ Hex.byte byte ++ s!" at index {index} is not ASCII"
  | invalidUtf8 length index => s!"invalid utf-8 sequence of {length} bytes from index {index}"
  | incompleteUtf8 index => s!"incomplete utf-8 byte sequence from index {index}"
  | oddUtf16 => "odd number of bytes in UTF-16 text"
  | unpairedSurrogate unit => "unpaired surrogate found: " ++ Hex.digits 1 unit
  | varintOverflow => "LEB128 value exceeds 128 bits"
  | varintUnfinished => "LEB128 value has no final byte"

/-- The text of a cause. -/
def ValueFault.message : ValueFault → String
  | reason text => text
  | integerRange value signed width =>
    s!"{value} does not fit " ++ (if signed then "a signed" else "an unsigned")
      ++ s!" {width}-byte integer"
  | bitRange value bits => s!"{value} does not fit in {bits} bits"
  | wordRange name value => s!"{name} = {value} does not fit in 64 bits"
  | outOfRange number => number ++ " is out of range"
  | notAscii c => Text.quotedChar c ++ " is not ASCII"
  | textTooLong count capacity => s!"{count} characters do not fit in {capacity}"
  | charactersOverflow count => s!"{count} characters overflow the address space"
  | mismatch expected kind => s!"expected {expected}, got {kind}"
  | byteCount expected got => s!"expected {expected} bytes, got {got}"
  | elementCount expected got => s!"expected {expected} elements, got {got}"
  | bitCount expected got => s!"expected {expected} bits, got {got}"
  | notSigned kind => s!"{kind} is not a signed integer"
  | notUnsigned kind => s!"{kind} is not an unsigned integer"
  | notNumber => "not a number"
  | notInteger => "not an integer"
  | notText typeName => s!"{typeName} is not a string"
  | notBits => "not a bit integer"
  | notPointer typeName => s!"{typeName} is not a pointer"
  | noInverse => "pointer has no inverse address mapping"
  | bitAtomCopied => "bit atoms are copied with their host"
  | notOutermost => "only parentless atoms can be discarded"
  | badIndex segment => "bad index in " ++ Text.quoted segment
  | notWord value => s!"{value} is not a u64"
  | noCase value => s!"no case for {value}"
  | arithmeticOverflow => "arithmetic overflow"

/-- The text of a cause. -/
def SchemaFault.message : SchemaFault → String
  | reason text => text
  | integerWidth width => s!"integer width must be 1..=16 bytes, got {width}"
  | fractionBits fraction bits => s!"{fraction} fraction bits exceed the {bits}-bit base"
  | zeroAlignment => "alignment must be non-zero"
  | attributeWithoutField record keyword => s!"record {record}: `{keyword}` before any field"
  | duplicateField record field => s!"record {record}: duplicate field name " ++ Text.quoted field
  | duplicateBitField record field =>
    s!"bit record {record}: duplicate field name " ++ Text.quoted field
  | duplicateMember union member =>
    s!"union {union}: duplicate member name " ++ Text.quoted member
  | memberWithoutSize union member typeName =>
    s!"union {union}: member " ++ Text.quoted member ++ s!" ({typeName}) has no static size"
  | unionTooSmall union size largest =>
    s!"union {union}: size {size} is smaller than its largest member ({largest})"
  | tagDefined registry tag => s!"registry {registry}: tag {tag} is already defined"
  | tagClash registry tag other =>
    s!"registry {registry}: tag {tag} from {other} is already defined"

/-- The text of a problem, without the path of its atom. -/
def Problem.message : Problem → String
  | source cause => cause.message
  | consume offset desired got =>
    "consumed " ++ Hex.number got ++ " of " ++ Hex.number desired ++ " bytes at offset "
      ++ Hex.number offset
  | initialization fault => "initialization failed: " ++ fault.message
  | decode fault => "decode failed: " ++ fault.message
  | nullDereference => "dereferenced a null pointer"
  | unterminatedArray count => s!"no terminator after {count} elements"
  | notFound key => "not found: " ++ key
  | value fault => fault.message

namespace Error

/-- A failed initialization, at no atom yet. -/
def initialization (fault : InitializationFault) : Error := located [] (.initialization fault)

def decode (fault : DecodeFault) : Error := located [] (.decode fault)

/-- A refused value, at no atom yet. -/
def value (fault : ValueFault) : Error := located [] (.value fault)

/-- A missing member, at no atom yet. -/
def notFound (key : String) : Error := located [] (.notFound key)

/-- A source that ended too early, at no atom yet. -/
def consume (offset desired got : Nat) : Error := located [] (.consume offset desired got)

/-- An error of a source, at no atom yet. Running out of bytes is a problem of its own. -/
def ofSource : SourceError → Error
  | .consume offset desired got => consume offset desired got
  | cause => located [] (.source cause)

def path? : Error → Option Path
  | located path _ => some path
  | schema _ => none

/-- The error as seen from further out: `outer` leads to where its path starts. -/
def within (outer : Path) : Error → Error
  | located path problem => located (outer ++ path) problem
  | schema fault => schema fault

def isConsume : Error → Bool
  | located _ (.consume ..) => true
  | _ => false

def message : Error → String
  | located path problem => path.text ++ ": " ++ problem.message
  | schema fault => "Schema: " ++ fault.message

/-- The failure of a rule of the layout, as a failed initialization. -/
def asInitialization : Error → Error
  | located path (.initialization fault) => located path (.initialization fault)
  | schema fault => schema fault
  | error => initialization (.reason error.message)

@[simp] theorem isConsume_within (outer : Path) (e : Error) :
    (e.within outer).isConsume = e.isConsume := by
  cases e with
  | located path problem => cases problem <;> rfl
  | schema fault => rfl

end Error

def Warning.message : Warning → String
  | decode path cause => path.text ++ ": decode failed: " ++ cause
  | unterminatedArray path count =>
    path.text ++ s!": source ended after {count} elements without a terminator"
  | constantMismatch path expected found =>
    path.text ++ ": expected " ++ Hex.list expected ++ ", found " ++ Hex.list found
  | leftover path bytes => path.text ++ s!": {bytes} trailing bytes kept as raw data"

/-- The path of the atom that a warning is about. -/
def Warning.path : Warning → Path
  | decode path _ | unterminatedArray path _ | constantMismatch path .. | leftover path _ => path

end BinaryLayout
