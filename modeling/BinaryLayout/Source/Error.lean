import BinaryLayout.Text.Hex

/-!
# Errors of byte sources

What can go wrong when a source is moved, read or written. Readers rely on one of them: a source
that has fewer bytes than were asked for reports `consume`, with the count of bytes it has.

## Main definitions

* `SourceError`: the errors.
* `SourceError.message`: their texts.
-/

namespace BinaryLayout

/-- Why a source did not do what it was asked. -/
inductive SourceError where
  /-- The system below the source failed. -/
  | io (reason : String)
  /-- A position past the end of the source. -/
  | outOfBounds (offset size : Nat)
  /-- Fewer bytes are there than were asked for. -/
  | consume (offset desired got : Nat)
  /-- Fewer bytes were written than were given. -/
  | store (offset desired written : Nat)
  /-- The source takes no bytes. -/
  | readOnly
  /-- A holder of the source failed while it held it. -/
  | poisoned
  deriving DecidableEq, Repr

namespace SourceError

def message : SourceError → String
  | io reason => "IO: " ++ reason
  | outOfBounds offset size =>
    "seek to " ++ Hex.number offset ++ " past the end of the source (" ++ Hex.number size ++ ")"
  | consume offset desired got =>
    "consumed " ++ Hex.number got ++ " of " ++ Hex.number desired ++ " bytes at "
      ++ Hex.number offset
  | store offset desired written =>
    "stored " ++ Hex.number written ++ " of " ++ Hex.number desired ++ " bytes at "
      ++ Hex.number offset
  | readOnly => "source is read-only"
  | poisoned => "source lock poisoned"

end SourceError

end BinaryLayout
