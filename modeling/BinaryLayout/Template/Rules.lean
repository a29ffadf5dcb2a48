import BinaryLayout.Template.Build

/-!
# The meaning of rules

The rules of a built layout are templates, formulas, recipes and predicates. Asked in a scope, a
template is built there, a formula and a recipe are computed there, and a predicate looks at the
element it is asked about.

## Main definitions

* `Recipe.eval`, `Predicate.holds`: the meaning of recipes and predicates.
* `Catalog.rules`: the meaning of all rules.
* `Catalog.env`: what documents of a catalog go by.
-/

namespace BinaryLayout

variable {κ : Type}

def Recipe.eval (s : Scope κ) : Recipe → Except Error Value
  | unsigned n => (n.eval 0 (some s)).map fun (n : Int) => .unsigned (n % pow2 128).toNat
  | signed n => (n.eval 0 (some s)).map .signed
  | bytesOf field => (s.serialize field).map .bytes
  | checksum field =>
    (s.serialize field).map fun bytes =>
      .unsigned ((bytes.foldl (fun sum byte => sum + byte.toNat) 0) % 256)
  | valueOf field => s.value field
  | textOf field => (s.text field).map .text
  | const v => .ok v
  | fail failure => .error failure.error

/-- What an element answers to a predicate, when its array has `count` elements with it. -/
def Predicate.holds (config : Config) (count : Nat) (p : Place κ) : Predicate → Except Error Bool
  | never => .ok false
  | always => .ok true
  | uintIs n => p.uint.map fun m => decide ((m : Int) = n)
  | intBelow n => p.int.map fun m => decide (m < n)
  | textIs text => p.text.map fun found => found == text
  | bytesAre bytes => .ok (p.serialize config.bitOrder == bytes)
  | fieldIs name n => ((p.field name).bind Place.uint).map fun m => decide ((m : Int) = n)
  | countReaches n => .ok (decide (n ≤ count))

/-- An element ends its array. One that cannot be asked does so, too. -/
def Predicate.accepts (config : Config) (count : Nat) (p : Place κ) (predicate : Predicate) :
    Bool :=
  match predicate.holds config count p with
  | .ok answer => answer
  | .error _ => true

/-- The error of a rule in a place that is not for its kind. -/
def misplacedRule : Error := .initialization .noScalarContent

namespace Catalog

def rules (c : Catalog) : Rules Rule where
  layout
    | .layout t, s => c.build (some s) t
    | _, _ => .error misplacedRule
  bitLayout
    | .bitLayout t, s => c.buildBits (some s) t
    | _, _ => .error misplacedRule
  extent
    | .extent n, s => n.evalWord 0 (some s)
    | _, _ => .error misplacedRule
  update
    | .update recipe, s => recipe.eval s
    | _, _ => .error misplacedRule
  accepts
    | .ending predicate, config, count, p => predicate.accepts config count p
    | _, _, _, _ => true
  distance
    | .number n, subject =>
      match n.eval (κ := Rule) subject none with
      | .ok distance => distance
      | .error _ => 0
    | _, _ => 0
  toAddress
    | .number n, s, subject => n.evalWord subject (some s)
    | _, _, _ => .error misplacedRule
  ofAddress
    | .number n, s, subject => n.eval subject (some s)
    | _, _, _ => .error misplacedRule

def env (c : Catalog) : Env Rule := ⟨c.config, c.rules⟩

end Catalog

end BinaryLayout
