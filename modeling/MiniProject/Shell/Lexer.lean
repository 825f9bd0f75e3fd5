import MiniProject.Machinery.Outcome
import MiniProject.Shell.Token

/-!
# Shell/Lexer — `maketoken`

One loop over the line with three states, a word under construction and a flag saying whether there
is one.  A round looks at the next character too and may take it (`i++` in the source), which
`lexStep` reports to the loop.

The two arrays written to have lengths `n` and `m`; the shell's are `wordSize` and `maxtok`.
-/

namespace MiniProject.Shell

/-- `state` of `maketoken`: 0 outside quotes, 1 inside `'…'`, 2 inside `"…"`. -/
inductive Quote
  | none | single | double
  deriving DecidableEq, Repr

/-- The locals of `maketoken`: `word[0..index)`, `content` and `tokens[0..*tok_count)`. -/
structure LexState where
  quote : Quote := .none
  word : Text := []
  content : Bool := false
  tokens : List Token := []
  deriving DecidableEq, Repr

/-- How `maketoken` fails: it prints a line and returns 0, or it writes past an array. -/
inductive LexError
  | invalid (message : Text)
  | overrun (o : Overrun)
  deriving DecidableEq, Repr

/-- The characters that separate words. -/
def isBlank (c : Char) : Bool := c = '\n' || c = '\t' || c = ' ' || c = '\r'

/-- The characters operators begin with. -/
def isOperator (c : Char) : Bool := c = '|' || c = '&' || c = ';' || c = '<' || c = '>'

section Steps

variable (n m : ℕ)

namespace LexState

/-- `word[index++] = c; content = 1`. -/
def put (s : LexState) (c : Char) : Except LexError LexState :=
  if s.word.length < n then .ok { s with word := s.word ++ [c], content := true }
  else .error (.overrun .word)

/-- `tokens[(*tok_count)++] = t`. -/
def emit (s : LexState) (t : Token) : Except LexError LexState :=
  if s.tokens.length < m then .ok { s with tokens := s.tokens ++ [t] }
  else .error (.overrun .tokens)

/-- The word under construction, if there is one, becomes a token. -/
def flush (s : LexState) : Except LexError LexState :=
  if s.content then
    if s.word.length < n then do -- room for the NUL
      let s ← s.emit m ⟨.word, s.word⟩
      .ok { s with word := [], content := false }
    else .error (.overrun .word)
  else .ok s

end LexState

/-- One round of the loop on `input[i] = c`, with `input[i + 1] = next` (`none` for the NUL).  The
flag says that the round took `next` as well. -/
def lexStep (s : LexState) (c : Char) (next : Option Char) : Except LexError (LexState × Bool) :=
  match s.quote with
  | .none =>
    if c = '\\' then
      match next with
      | none => .error (.invalid invalidSyntax)
      | some d => do .ok (← s.put n d, true)
    else if c = '\'' then .ok ({ s with quote := .single, content := true }, false)
    else if c = '"' then .ok ({ s with quote := .double, content := true }, false)
    else if isBlank c then do .ok (← s.flush n m, false)
    else if isOperator c then do
      let s ← s.flush n m
      if c = '>' ∧ next = some '>' then .ok (← s.emit m ⟨.gtgt, []⟩, true)
      else if c = '>' then .ok (← s.emit m ⟨.gt, []⟩, false)
      else if c = '<' then .ok (← s.emit m ⟨.lt, []⟩, false)
      else if c = '|' then .ok (← s.emit m ⟨.pipe, []⟩, false)
      else if c = '&' then .ok (← s.emit m ⟨.amp, []⟩, false)
      else .ok (← s.emit m ⟨.semi, []⟩, false)
    else do .ok (← s.put n c, false)
  | .single =>
    if c = '\'' then .ok ({ s with quote := .none }, false)
    else do .ok (← s.put n c, false)
  | .double =>
    if c = '\\' ∧ next = some '"' then do .ok (← s.put n '"', true)
    else if c = '\\' ∧ next = some '\\' then do .ok (← s.put n '\\', true)
    else if c = '"' then .ok ({ s with quote := .none }, false)
    else do .ok (← s.put n c, false)

/-- The loop of `maketoken`. -/
def scan : LexState → Text → Except LexError LexState
  | s, [] => .ok s
  | s, [c] => do .ok (← lexStep n m s c none).1
  | s, c :: d :: cs => do
    let (s, taken) ← lexStep n m s c (some d)
    if taken then scan s cs else scan s (d :: cs)

/-- `maketoken` from the loop on: the last word, and the test of the final state. -/
def lexFrom (s : LexState) (input : Text) : Except LexError (List Token) := do
  let s ← scan n m s input
  let s ← s.flush n m
  if s.quote = .none then .ok s.tokens else .error (.invalid invalidSyntax)

end Steps

/-- `maketoken`: `.ok` with the tokens is its 1, a syntax error its 0 with the line it prints. -/
def maketoken (input : Text) : Except LexError (List Token) := lexFrom wordSize maxtok {} input

end MiniProject.Shell
