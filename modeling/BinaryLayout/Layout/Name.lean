import BinaryLayout.Layout.Basic

/-!
# Names of layouts

Records and unions carry a name; every other layout has one that tells its shape, such as `u16be`,
`strz`, `i32le[4]` or `*header`.

## Main definitions

* `Layout.name`, `BitLayout.name`, `AtomLayout.name`.
* `AddressPolicy.text`: the written form of a pointer's policy.
-/

namespace BinaryLayout

variable {κ : Type}

def BitLayout.name : BitLayout κ → String
  | int bits signed => (if signed then "s" else "u") ++ toString bits
  | record name _ => name
  | array element (.counted count) => element.name ++ s!"[{count}]"
  | array element (.terminated _) => element.name ++ "[..]"

/-- The name of an encoding, as text layouts use it. -/
def Encoding.name : Encoding → String
  | ascii => "str"
  | utf8 => "utf8"
  | utf16 order => "wstr" ++ order.suffix

def TextFormat.name (t : TextFormat) : String :=
  match t.length with
  | .counted count => t.encoding.name ++ s!"[{count}]"
  | .terminated => t.encoding.name ++ "z"
  | .prefixed format => t.encoding.name ++ "<" ++ format.name ++ ">"

def fixedName (base : IntFormat) (fraction : Nat) : String :=
  (if base.signed then "s" else "u") ++ s!"fixed{8 * base.width}.{fraction}" ++ base.suffix

/-- What the name of an array adds to that of its element. -/
def Shape.suffix : Shape κ → String
  | counted count => s!"[{count}]"
  | block extent => s!"[{extent} bytes]"
  | terminated _ => "[..]"
  | unending => "[*]"

def Layout.name : Layout κ → String
  | int format => format.name
  | float precision order => s!"f{8 * precision.width}" ++ order.suffix
  | fixed base fraction => fixedName base fraction
  | varint signed => if signed then "sleb128" else "uleb128"
  | text format => format.name
  | block length => s!"block[{length}]"
  | constant bytes => s!"const[{bytes.length}]"
  | padding length => s!"padding[{length}]"
  | align alignment => s!"align[{alignment}]"
  | record name _ => name
  | array element shape => element.name ++ shape.suffix
  | union name _ _ => name
  | pointer _ target _ => "*" ++ target.name
  | bits root _ => root.name

def AtomLayout.name : AtomLayout κ → String
  | bytes layout => layout.name
  | bits layout => layout.name

def Base.text : Base → String
  | root => "Root"
  | parent => "Parent"
  | ancestor name => "Ancestor(" ++ Text.quoted name ++ ")"

/-- The written form of an address policy. -/
def AddressPolicy.text : AddressPolicy κ → String
  | absolute => "Absolute"
  | relative base => "Relative(" ++ base.text ++ ")"
  | selfRelative | mapped .. => "SelfRelative"
  | computed .. => "Computed"

end BinaryLayout
