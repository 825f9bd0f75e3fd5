import Mathlib.Algebra.Order.Ring.Int
import Mathlib.Data.List.Basic

/-!
# Shell/Token — tokens, texts and the fixed arrays they are copied into

The lexer fills an array of `token`s, the parser walks it and `run_cmd` cuts it into segments.  All
three write into arrays of fixed size without asking how full they are; a write past the end is
undefined in C, so the model stops there with the array it left (`Overrun`).
-/

namespace MiniProject.Shell

/-- The bytes of a C string, without the terminating NUL. -/
abbrev Text := List Char

/-- `tokentype` of `lexer.h`.  Its last three members are never given to a token. -/
inductive TokenType
  | pipe | amp | semi | lt | gt | gtgt | word | fragment | dq | sq
  deriving DecidableEq, Repr

namespace TokenType

/-- `<`, `>` or `>>`. -/
def IsRedir (t : TokenType) : Prop := t = .lt ∨ t = .gt ∨ t = .gtgt

/-- `;` or `&`. -/
def IsSep (t : TokenType) : Prop := t = .semi ∨ t = .amp

/-- A member of the enumeration that `maketoken` never emits. -/
def IsStray (t : TokenType) : Prop := t = .fragment ∨ t = .dq ∨ t = .sq

instance (t : TokenType) : Decidable t.IsRedir := inferInstanceAs (Decidable (_ ∨ _))
instance (t : TokenType) : Decidable t.IsSep := inferInstanceAs (Decidable (_ ∨ _))
instance (t : TokenType) : Decidable t.IsStray := inferInstanceAs (Decidable (_ ∨ _))

end TokenType

/-- `token` of `lexer.h`.  The lexer sets `value` on words only. -/
structure Token where
  type : TokenType
  value : Text
  deriving DecidableEq, Repr

/-- The line `cshell: invalid syntax` that the lexer and the parser print. -/
def invalidSyntax : Text := "cshell: invalid syntax\n".toList

/-! ## Fixed arrays -/

/-- `char word[1024]` in `maketoken`. -/
def wordSize : ℕ := 1024

/-- `maxtok`, the length of `tokens` in `main`. -/
def maxtok : ℕ := 256

/-- `char *argv[100]` in `commands`. -/
def argvSize : ℕ := 100

/-- `char *in_files[20]` in `commands`. -/
def inFilesSize : ℕ := 20

/-- `out_files[20]` in `commands`. -/
def outFilesSize : ℕ := 20

/-- `commands pipeline[100]` in `run_cmd`. -/
def pipelineSize : ℕ := 100

/-- The array a write left. -/
inductive Overrun
  | word | tokens | argv | inFiles | outFiles | pipeline | jobs | jobPids
  deriving DecidableEq, Repr

end MiniProject.Shell
