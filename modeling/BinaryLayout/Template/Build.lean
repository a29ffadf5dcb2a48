import BinaryLayout.Layout.Build
import BinaryLayout.Template.Basic

/-!
# Building templates

A template is built into a layout part by part, from left to right, and the first error wins. Fields
that are rules are not built: the layout keeps their templates as rules.

Templates may name others in a catalog. A chain of names that leads in a circle has no layout.

## Main definitions

* `Catalog`: named templates, registries and a configuration.
* `BitTemplate.build`, `Template.build`: the layout of a template, given those of the names in it.
* `Catalog.build`, `Catalog.buildBits`: the layout of a template in a scope.
-/

namespace BinaryLayout

/-- What a template is built by: the scope of its formulas and what its names stand for. -/
structure Builder where
  config : Config
  scope? : Option (Scope Rule)
  named : String → Except Error (Layout Rule)
  namedBits : String → Except Error (BitLayout Rule)
  registry : String → Except Error (Registry Nat (Layout Rule))

namespace Builder

variable (b : Builder)

def number (f : Formula) : Except Error Int := f.eval 0 b.scope?

/-- The number of a formula, when it is not negative and 64 bits hold it. -/
def word (f : Formula) : Except Error Nat := f.evalWord 0 b.scope?

/-- The number of a formula that may be left out. -/
def word? : Option Formula → Except Error (Option Nat)
  | none => .ok none
  | some f => (b.word f).map some

def int : IntTemplate → Except Error IntFormat
  | .given format => .ok format
  | .computed width signed order => do IntFormat.make (← b.word width) signed order

def textLength : TextLengthTemplate → Except Error TextLength
  | .counted count => (b.word count).map .counted
  | .terminated => .ok .terminated
  | .prefixed format => (b.int format).map .prefixed

def shape : ShapeTemplate → Except Error (Shape Rule)
  | .counted count => (b.word count).map .counted
  | .block extent => (b.word extent).map .block
  | .terminated predicate => .ok (.terminated (.ending predicate))
  | .unending => .ok .unending

/-- How many elements an array of bits has. -/
def bitShape : BitShapeTemplate → Except Error (BitShape Rule)
  | .counted count => (b.word count).map .counted
  | .terminated predicate => .ok (.terminated (.ending predicate))

end Builder

/-- How a pointer's number means an address. Its formulas become rules. -/
def PolicyTemplate.policy : PolicyTemplate → AddressPolicy Rule
  | absolute => .absolute
  | relative base => .relative base
  | selfRelative => .selfRelative
  | mapped toDistance ofDistance? => .mapped (.number toDistance) (ofDistance?.map .number)
  | computed toAddress ofAddress? => .computed (.number toAddress) (ofAddress?.map .number)

namespace BitTemplate

mutual

def build (b : Builder) : BitTemplate → Except Error (BitLayout Rule)
  | .int bits signed => (b.word bits).map fun width => .int width signed
  | .array element shape => do
    let element ← build b element
    return .array element (← b.bitShape shape)
  | .record name fields => do BitLayout.makeRecord name (← buildFields b fields)
  | .named name => b.namedBits name
  | .select on cases otherwise => do
    let n ← b.number on
    match buildCase b n cases with
    | some result => result
    | none =>
      match otherwise with
      | some template => build b template
      | none => .error (.value (.noCase n))
  | .fail failure => .error failure.error

def buildFields (b : Builder) : List (FieldTemplate BitTemplate) →
    Except Error (List (BitField Rule (BitLayout Rule)))
  | [] => .ok []
  | ⟨name, template, isRule, _, _⟩ :: fields => do
    let layout ←
      if isRule then pure (Choice.computed (Rule.bitLayout template))
      else (build b template).map Choice.given
    return ⟨name, layout⟩ :: (← buildFields b fields)

/-- The layout of the case that a number selects. -/
def buildCase (b : Builder) (n : Int) : List (Int × BitTemplate) →
    Option (Except Error (BitLayout Rule))
  | [] => none
  | (key, template) :: cases => if key = n then some (build b template) else buildCase b n cases

end

end BitTemplate

namespace Template

mutual

def build (b : Builder) : Template → Except Error (Layout Rule)
  | .int format => (b.int format).map .int
  | .configuredInt width signed => do b.config.int (← b.word width) signed
  | .configuredPointer target => do b.config.pointer (← build b target)
  | .configuredBits root => (root.build b).map b.config.bits
  | .float precision order => .ok (.float precision order)
  | .fixed base fraction => do
    let base ← b.int base
    Layout.makeFixed base (← b.word fraction)
  | .varint signed => .ok (.varint signed)
  | .text encoding length => (b.textLength length).map fun length => .text ⟨encoding, length⟩
  | .block length => (b.word length).map .block
  | .padding length => (b.word length).map .padding
  | .constant bytes => .ok (.constant bytes)
  | .align alignment => do Layout.makeAlign (← b.word alignment)
  | .array element shape => do
    let element ← build b element
    return .array element (← b.shape shape)
  | .union name members size => do
    let members ← buildMembers b members
    Layout.makeUnion name members (← b.word? size)
  | .pointer wire target policy => do
    let wire ← b.int wire
    return .pointer wire (← build b target) policy.policy
  | .bits root order => (root.build b).map fun root => .bits root order
  | .record name stray fields => do
    let fields ← buildFields b fields
    match stray.getLast? with
    | some word => .error (.schema (.attributeWithoutField name word))
    | none => Layout.makeRecord name fields
  | .named name => b.named name
  | .select on cases otherwise => do
    let n ← b.number on
    match buildCase b n cases with
    | some result => result
    | none =>
      match otherwise with
      | some template => build b template
      | none => .error (.value (.noCase n))
  | .registered registry tag length? => do
    let tag ← b.word tag
    let length? ← b.word? length?
    return (← b.registry registry).get tag length?
  | .fail failure => .error failure.error

def buildFields (b : Builder) : List (FieldTemplate Template) →
    Except Error (List (Field Rule (Layout Rule)))
  | [] => .ok []
  | ⟨name, template, isRule, extent?, update?⟩ :: fields => do
    let layout ←
      if isRule then pure (Choice.computed (Rule.layout template))
      else (build b template).map Choice.given
    let field : Field Rule (Layout Rule) :=
      ⟨name, layout, extent?.map Rule.extent, update?.map Rule.update⟩
    return field :: (← buildFields b fields)

def buildMembers (b : Builder) : List (String × Template) →
    Except Error (List (String × Layout Rule))
  | [] => .ok []
  | (name, template) :: members => do
    let layout ← build b template
    return (name, layout) :: (← buildMembers b members)

/-- The layout of the case that a number selects. -/
def buildCase (b : Builder) (n : Int) : List (Int × Template) →
    Option (Except Error (Layout Rule))
  | [] => none
  | (key, template) :: cases => if key = n then some (build b template) else buildCase b n cases

end

end Template

/-! ## Catalogs -/

/-- Named templates and registries, with the configuration that templates are built by. -/
structure Catalog where
  config : Config := {}
  templates : List (String × Template) := []
  bitTemplates : List (String × BitTemplate) := []
  registries : List (String × Registry Nat (Layout Rule)) := []

namespace Catalog

def registry (c : Catalog) (name : String) : Except Error (Registry Nat (Layout Rule)) :=
  match c.registries.lookup name with
  | some r => .ok r
  | none => .error (.notFound name)

/-- The error of names that lead in a circle. -/
def circular : Error := .initialization (.nestingLimit Layout.nestingLimit)

/-- A builder for templates without names. -/
def plainBuilder (c : Catalog) (scope? : Option (Scope Rule)) : Builder where
  config := c.config
  scope?
  named := fun _ => .error circular
  namedBits := fun _ => .error circular
  registry := c.registry

/-- The layout that a name of the catalog stands for among bits, through at most `depth` names. -/
def namedBits (c : Catalog) (scope? : Option (Scope Rule)) :
    Nat → String → Except Error (BitLayout Rule)
  | 0, _ => .error circular
  | depth + 1, name =>
    match c.bitTemplates.lookup name with
    | some t => t.build { c.plainBuilder scope? with namedBits := c.namedBits scope? depth }
    | none => .error (.notFound name)

def bitBuilder (c : Catalog) (scope? : Option (Scope Rule)) : Builder :=
  { c.plainBuilder scope? with namedBits := c.namedBits scope? c.bitTemplates.length }

/-- The layout that a name of the catalog stands for, through at most `depth` names. -/
def named (c : Catalog) (scope? : Option (Scope Rule)) : Nat → String → Except Error (Layout Rule)
  | 0, _ => .error circular
  | depth + 1, name =>
    match c.templates.lookup name with
    | some t => t.build { c.bitBuilder scope? with named := c.named scope? depth }
    | none => .error (.notFound name)

/-- A builder for templates in a scope. No chain of different names is longer than the catalog. -/
def builder (c : Catalog) (scope? : Option (Scope Rule)) : Builder :=
  { c.bitBuilder scope? with named := c.named scope? c.templates.length }

def build (c : Catalog) (scope? : Option (Scope Rule)) (t : Template) :
    Except Error (Layout Rule) :=
  t.build (c.builder scope?)

/-- The layout of a template of bits in a scope. -/
def buildBits (c : Catalog) (scope? : Option (Scope Rule)) (t : BitTemplate) :
    Except Error (BitLayout Rule) :=
  t.build (c.builder scope?)

/-- A registry of layouts, whose default is a block of the length that is asked for. -/
def emptyRegistry {τ : Type} (name : String) : Registry τ (Layout Rule) :=
  { name, default := fun length? => .block (length?.getD 0) }

/-- Adds the layouts of templates to a registry, one after another. -/
def defineAll (c : Catalog) (r : Registry Nat (Layout Rule)) :
    List (Nat × Template) → Except Error (Registry Nat (Layout Rule))
  | [] => .ok r
  | (tag, t) :: entries => do
    let layout ← c.build none t
    c.defineAll (← r.define tag layout) entries

def addRegistry (c : Catalog) (name : String) (entries : List (Nat × Template)) :
    Except Error Catalog := do
  let r ← c.defineAll (emptyRegistry name) entries
  return { c with registries := c.registries ++ [(name, r)] }

end Catalog

end BinaryLayout
