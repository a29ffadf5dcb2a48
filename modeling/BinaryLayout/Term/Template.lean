import BinaryLayout.Template.Build
import BinaryLayout.Term.Formula

/-!
# Templates as terms

A word stands for a layout that needs no further description; everything else is a record whose
member `t`, or `b` for layouts of bits, tells what it is.

## Main definitions

* `Term.template?`, `Term.bitTemplate?`: the template that a term stands for.
* `Term.config?`, `Term.catalog?`: a configuration, and a catalog with its registries.
-/

namespace BinaryLayout.Term

/-- The usual stored integers of one byte order. -/
def usualFormats (order : ByteOrder) : List IntFormat :=
  [.u8, .i8, .u16 order, .u32 order, .u64 order, .i16 order, .i32 order, .i64 order]

def namedFormats : List (String × IntFormat) :=
  (usualFormats .little ++ usualFormats .big).map fun format => (format.name, format)

def encodings : List (String × Encoding) :=
  [("ascii", .ascii), ("utf8", .utf8), ("utf16le", .utf16 .little), ("utf16be", .utf16 .big)]

def single : Formula := .number 1

/-- The layouts of bytes that a word stands for. -/
def namedTemplates : List (String × Template) :=
  namedFormats.map (fun entry => (entry.1, .int (.given entry.2))) ++
    [("uleb128", .varint false), ("sleb128", .varint true), ("cstring", .text .ascii .terminated),
      ("char", .text .ascii (.counted single))]

def intTemplate? (t : Term) : Option IntTemplate :=
  match t with
  | word name => (namedFormats.lookup name).map .given
  | _ => do
    return .computed (← (← t.get? "width").formula?) (← (← t.get? "signed").flag?)
      (← (← t.get? "order").order?)

def textLength? : Term → Option TextLengthTemplate
  | word "terminated" => some .terminated
  | record [("fixed", count)] => count.formula?.map .counted
  | record [("prefixed", format)] => format.intTemplate?.map .prefixed
  | _ => none

/-- How a pointer's number means an address. -/
def policy? (t : Term) : Option PolicyTemplate :=
  match t with
  | word "absolute" => some .absolute
  | word "self" => some .selfRelative
  | record [("relative", word "root")] => some (.relative .root)
  | record [("relative", word "parent")] => some (.relative .parent)
  | record [("relative", record [("ancestor", word name)])] => some (.relative (.ancestor name))
  | _ =>
    match t.get? "self_map", t.get? "computed" with
    | some map, _ => do return .mapped (← map.formula?) (← t.optional? "inverse" formula?)
    | none, some map => do return .computed (← map.formula?) (← t.optional? "encode" formula?)
    | none, none => none

/-- The cases of a selection. Only the plain decimal form of a number selects. -/
def cases? {τ : Type} (read : Term → Option τ) (t : Term) : Option (List (Int × τ)) := do
  let plain := (← t.members?).filterMap fun member =>
    (member.1.toInt?.filter fun n => toString n = member.1).map fun n => (n, member.2)
  plain.mapM fun entry => do return (entry.1, ← read entry.2)

def field? {τ : Type} (read : Term → Option τ) (t : Term) : Option (FieldTemplate τ) := do
  let (isRule, template) ← t.choose? [("type", false), ("dyn", true)]
  return {
    name := ← (← t.get? "name").text?
    template := ← read template
    isRule
    extent? := ← t.optional? "sized" formula?
    update? := ← t.optional? "update" recipe? }

def fields? {τ : Type} (read : Term → Option τ) (t : Term) : Option (List (FieldTemplate τ)) := do
  (← (← t.get? "fields").items?).mapM (field? read)

/-! ## Bits -/

/-- The integer of bits that a word stands for: `u` or `s` and its width. -/
def namedBits? (name : String) : Option BitTemplate :=
  match name.toList with
  | 'u' :: digits => (String.ofList digits).toInt?.map fun n => .int (.number n) false
  | 's' :: digits => (String.ofList digits).toInt?.map fun n => .int (.number n) true
  | _ => none

/-- The template of bits that a term of at most so many levels stands for. -/
def bitTemplateTo? : Nat → Term → Option BitTemplate
  | 0, _ => none
  | _ + 1, word name => namedBits? name
  | depth + 1, t =>
    if t.has "fail" then t.failure?.map .fail
    else do
      match ← (← t.get? "b").text? with
      | "uint" => return .int (← (← t.get? "bits").formula?) false
      | "sint" => return .int (← (← t.get? "bits").formula?) true
      | "array" =>
        let element ← bitTemplateTo? depth (← t.get? "elem")
        return .array element (.counted (← (← t.get? "count").formula?))
      | "terminated" =>
        let element ← bitTemplateTo? depth (← t.get? "elem")
        return .array element (.terminated (← (← t.get? "until").predicate?))
      | "record" =>
        return .record (← (← t.get? "name").text?) (← t.fields? (bitTemplateTo? depth))
      | "ref" => return .named (← (← t.get? "name").text?)
      | "switch" =>
        return .select (← (← t.get? "on").formula?)
          (← (← t.get? "cases").cases? (bitTemplateTo? depth))
          (← t.optional? "default" (bitTemplateTo? depth))
      | _ => none

/-- The template of bits that a term stands for. -/
def bitTemplate? (t : Term) : Option BitTemplate := bitTemplateTo? t.height t

/-! ## Bytes -/

def formulaAt? (t : Term) (name : String) : Option Formula := (t.get? name).bind formula?

def ownOrder? (t : Term) : Option ByteOrder := (t.get? "order").bind order?

/-- The template of a record that describes a number. -/
def numberTemplate? (t : Term) : String → Option Template
  | "uint" => do return .int (.computed (← t.formulaAt? "width") false (← t.ownOrder?))
  | "sint" => do return .int (.computed (← t.formulaAt? "width") true (← t.ownOrder?))
  | "cuint" => do return .configuredInt (← t.formulaAt? "width") false
  | "csint" => do return .configuredInt (← t.formulaAt? "width") true
  | "float" => do
    let widths := [(16, Precision.half), (32, .single), (64, .double)]
    return .float (← widths.lookup (← (← t.get? "bits").nat?)) (← t.ownOrder?)
  | "fixed" => do
    return .fixed (← (← t.get? "base").intTemplate?) (← t.formulaAt? "frac")
  | _ => none

/-- The template of a record that describes a text. -/
def textTemplate? (t : Term) : String → Option Template
  | "string" => do return .text .ascii (.counted (← t.formulaAt? "len"))
  | "pstring" => do return .text .ascii (.prefixed (← (← t.get? "prefix").intTemplate?))
  | "wstring" => do return .text (.utf16 (← t.ownOrder?)) (.counted (← t.formulaAt? "len"))
  | "wcstring" => do return .text (.utf16 (← t.ownOrder?)) .terminated
  | "wchar" => do return .text (.utf16 (← t.ownOrder?)) (.counted single)
  | "text" => do
    return .text (← (← t.get? "enc").among? encodings) (← (← t.get? "length").textLength?)
  | _ => none

/-- The template of a record that describes a stretch of bytes. -/
def stretchTemplate? (t : Term) : String → Option Template
  | "block" => do return .block (← t.formulaAt? "len")
  | "padding" => do return .padding (← t.formulaAt? "len")
  | "const" => do return .constant (← (← t.get? "hex").bytes?)
  | "align" => do return .align (← t.formulaAt? "n")
  | _ => none

def member? (read : Term → Option Template) (t : Term) : Option (String × Template) := do
  return (← (← t.get? "name").text?, ← read (← t.get? "type"))

/-- The template of a record that describes a layout with parts. -/
def compoundTemplate? (read : Term → Option Template) (t : Term) : String → Option Template
  | "cpointer" => do return .configuredPointer (← read (← t.get? "target"))
  | "cbits" => do return .configuredBits (← (← t.get? "root").bitTemplate?)
  | "array" => do return .array (← read (← t.get? "elem")) (.counted (← t.formulaAt? "count"))
  | "block_array" => do
    return .array (← read (← t.get? "elem")) (.block (← t.formulaAt? "bytes"))
  | "terminated" => do
    return .array (← read (← t.get? "elem")) (.terminated (← (← t.get? "until").predicate?))
  | "infinite" => do return .array (← read (← t.get? "elem")) .unending
  | "union" => do
    let members ← (← (← t.get? "members").items?).mapM (member? read)
    return .union (← (← t.get? "name").text?) members (← t.optional? "size" formula?)
  | "pointer" => do
    return .pointer (← (← t.get? "wire").intTemplate?) (← read (← t.get? "target"))
      (← (← t.get? "policy").policy?)
  | "bits" => do return .bits (← (← t.get? "root").bitTemplate?) (← t.ownOrder?)
  | "record" => do
    return .record (← (← t.get? "name").text?) (["sized", "update"].filter t.has)
      (← t.fields? read)
  | _ => none

/-- The template of a record that leads to another layout. -/
def indirectTemplate? (read : Term → Option Template) (t : Term) : String → Option Template
  | "ref" => do return .named (← (← t.get? "name").text?)
  | "switch" => do
    return .select (← t.formulaAt? "on") (← (← t.get? "cases").cases? read)
      (← t.optional? "default" read)
  | "registry" => do
    return .registered (← (← t.get? "name").text?) (← t.formulaAt? "tag")
      (← t.optional? "len" formula?)
  | _ => none

/-- The template that a term of at most so many levels stands for. -/
def templateTo? : Nat → Term → Option Template
  | 0, _ => none
  | _ + 1, word name => namedTemplates.lookup name
  | depth + 1, t =>
    if t.has "fail" then t.failure?.map .fail
    else do
      let kind ← (← t.get? "t").text?
      (t.numberTemplate? kind <|> t.textTemplate? kind <|> t.stretchTemplate? kind
        <|> t.compoundTemplate? (templateTo? depth) kind
        <|> t.indirectTemplate? (templateTo? depth) kind)

def template? (t : Term) : Option Template := templateTo? t.height t

/-! ## Catalogs -/

/-- A configuration. What it leaves out is as usual. -/
def config? (t : Term) : Option Config := do
  let usual : Config := {}
  return {
    byteOrder := (← t.optional? "byteorder" order?).getD usual.byteOrder
    bitOrder := (← t.optional? "bit_order" order?).getD usual.bitOrder
    pointerWidth := (← t.optional? "pointer_width" nat?).getD usual.pointerWidth
    maxElements := (← t.optional? "max_elements" nat?).getD usual.maxElements
    padding := ((← t.optional? "padding" nat?).map UInt8.ofNat).getD usual.padding }

/-- The members of a record that can be read. -/
def readable {α : Type} (read : Term → Option α) (t : Term) : List (String × α) :=
  (t.members?.getD []).filterMap fun member => (read member.2).map fun a => (member.1, a)

def entries? (t : Term) : Option (List (Nat × Template)) := do
  (← t.items?).mapM fun entry => do
    let (tag, template) ← entry.pair?
    return (← tag.nat?, ← template.template?)

/-- A catalog: configuration, named templates of bytes and of bits, and registries, which are built
one after another. -/
def catalog? (t : Term) : Option (Except Error Catalog) := do
  let types := (t.get? "types").getD .nothing
  let catalog : Catalog :=
    { config := (← t.optional? "config" config?).getD {}
      templates := types.readable template?
      bitTemplates := types.readable bitTemplate? }
  let registries ← (((t.get? "registries").bind members?).getD []).mapM fun member => do
    return (member.1, ← member.2.entries?)
  return registries.foldlM (fun c registry => c.addRegistry registry.1 registry.2) catalog

end BinaryLayout.Term
