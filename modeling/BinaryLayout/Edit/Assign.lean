import BinaryLayout.Edit.Basic
import BinaryLayout.Layout.Scalar

/-!
# Assigning values

A value goes into an atom part by part. A record or a union takes fields by name, an array takes a
list, a host of bits passes the value to its root, and everything else encodes it. An array that is
not counted takes a list of any length; when the length changes all its elements are made anew.

## Main definitions

* `EditM.setBits`: assigns to an atom of bits.
* `EditM.setBytes`: assigns to an atom of bytes.
* `EditM.setValue`: assigns to any atom.
-/

namespace BinaryLayout

variable {κ : Type}

namespace EditM

/-- Refuses what a null pointer refers to, and allocates an atom without content. -/
def prepare (env : Env κ) : EditM κ Unit := do
  let a ← atom
  if a.info.null then throw (.located [] .nullDereference)
  if a.content = .empty then remake (allocate env Layout.nestingLimit)

/-- Marks the changed atom as initialized and lets everything around it follow. -/
def finish (env : Env κ) : EditM κ Unit := do
  setAtom (← atom).ready
  afterChange env

def atMember (name : String) (m : EditM κ Unit) : EditM κ Unit := do
  match Place.indexOf? (← atom) name with
  | some i => within [name] (atPart i m)
  | none => throw (.notFound name)

/-- The number of parts, when it is the number of elements given. -/
def expectParts (given : Nat) : EditM κ Unit := do
  let count := (← atom).parts.length
  if count ≠ given then throw (.value (.elementCount count given))

/-! ## Bits -/

mutual

def setBits (env : Env κ) (v : Value) : EditM κ Unit := do
  prepare env
  match (← atom).info.layout with
  | .bits (.int bits signed) =>
    let encoded ← ofExcept (encodeBits bits signed v)
    setAtom ((← atom).fill (.bits encoded) [])
  | .bits (.record ..) =>
    match v with
    | .fields members => setBitFields env members
    | _ => throw (mismatch "a struct" v)
  | .bits (.array ..) =>
    match v with
    | .items elements =>
      expectParts elements.length
      setBitElements env 0 elements
    | _ => throw (mismatch "a list" v)
  | .bytes _ => throw (.initialization .byteAtomAmongBits)
  finish env

def setBitFields (env : Env κ) : List (String × Value) → EditM κ Unit
  | [] => pure ()
  | (name, v) :: members => do
    atMember name (setBits env v)
    setBitFields env members

/-- Assigns elements of bits, from the one at `index` on. -/
def setBitElements (env : Env κ) (index : Nat) : List Value → EditM κ Unit
  | [] => pure ()
  | v :: elements => do
    within [Path.index index] (atPart index (setBits env v))
    setBitElements env (index + 1) elements

end

/-! ## Bytes -/

def dropElements : EditM κ Unit := do
  let a ← atom
  ofLedger (modify (Ledger.releaseAll a.parts))
  setAtom ((a.fill .group []).withTail [])

/-- Adds an element with default content to an array. -/
def addElement (env : Env κ) (element : Layout κ) (index cursor : Nat) : EditM κ Unit := do
  let blank ← ofLedger (LedgerM.spawn (toString index) (.bytes element) cursor)
  setAtom ((← atom).push blank)
  within [Path.index index] (atPart index (remake (allocate env Layout.nestingLimit)))

def partSize (i : Nat) : EditM κ Nat := return ((← atom).parts[i]?.map Atom.size).getD 0

/-- Assigns a value to an atom without parts of its own. -/
def setScalar (layout : Layout κ) (v : Value) : EditM κ Unit := do
  let raw ← ofExcept (layout.encode v)
  let a ← atom
  ofLedger (modify (Ledger.releaseAll a.parts))
  setAtom ((a.mapInfo fun info => { info with undecodable := false }).withBytes layout raw)

mutual

def setBytes (env : Env κ) (v : Value) : EditM κ Unit := do
  prepare env
  match (← atom).info.layout with
  | .bytes (.record ..) | .bytes (.union ..) =>
    match v with
    | .fields members => setFields env members
    | _ => throw (mismatch "a struct" v)
  | .bytes (.array element shape) =>
    match v with
    | .items elements =>
      let a ← atom
      if elements.length = a.parts.length then setElements env 0 elements
      else
        match shape with
        | .counted count => throw (.value (.elementCount count elements.length))
        | _ =>
          dropElements
          setNewElements env element 0 a.info.offset elements
    | _ => throw (mismatch "a list" v)
  | .bytes (.bits ..) =>
    match (← atom).content with
    | .host _ => atPart 0 (setBits env v)
    | _ => throw (.initialization .emptyHost)
  | .bytes layout => setScalar layout v
  | .bits _ => throw (.initialization .bitAtomAlone)
  finish env

def setFields (env : Env κ) : List (String × Value) → EditM κ Unit
  | [] => pure ()
  | (name, v) :: members => do
    atMember name (setBytes env v)
    setFields env members

/-- Assigns elements, from the one at `index` on. -/
def setElements (env : Env κ) (index : Nat) : List Value → EditM κ Unit
  | [] => pure ()
  | v :: elements => do
    within [Path.index index] (atPart index (setBytes env v))
    setElements env (index + 1) elements

/-- Adds elements and assigns to them, from the one at `index` on. -/
def setNewElements (env : Env κ) (element : Layout κ) (index cursor : Nat) :
    List Value → EditM κ Unit
  | [] => pure ()
  | v :: elements => do
    addElement env element index cursor
    within [Path.index index] (atPart index (setBytes env v))
    setNewElements env element (index + 1) (satAdd cursor (← partSize index)) elements

end

def setValue (env : Env κ) (v : Value) : EditM κ Unit := do
  if (← atom).isBits then setBits env v else setBytes env v

end EditM

end BinaryLayout
