import Mathlib.Data.List.Basic

namespace SysvDev.Cpp

variable {N : Type}

/-- The tokens of a text in which a macro is called. `param` is the parameter
in the body of a macro, and `arg` is the argument of the call in question. -/
inductive Tok (N : Type)
  | name (n : N)
  | num (v : Nat)
  | lparen
  | rparen
  | amp
  | bar
  | shl
  | shr
  | hash
  | stray (c : Char)
  | param
  | arg
  deriving DecidableEq

inductive Macro (N : Type)
  | object (body : List (Tok N))
  | function (body : List (Tok N))

/-- The tokens up to the parenthesis that closes, with `depth` others open, and
the tokens after it. -/
def closing : Nat → List (Tok N) → Option (List (Tok N) × List (Tok N))
  | _, [] => none
  | 0, .rparen :: ts => some ([], ts)
  | depth + 1, .rparen :: ts => (closing depth ts).map fun r => (.rparen :: r.1, r.2)
  | depth, .lparen :: ts => (closing (depth + 1) ts).map fun r => (.lparen :: r.1, r.2)
  | depth, t :: ts => (closing depth ts).map fun r => (t :: r.1, r.2)

def substitute (a : List (Tok N)) (body : List (Tok N)) : List (Tok N) :=
  body.flatMap fun
    | .param => a
    | t => [t]

/-- Expands all macros. An argument is expanded before it is put into the body,
and the body is gone through again with what follows it. -/
def expand (defs : N → Option (Macro N)) : Nat → List (Tok N) → Option (List (Tok N))
  | 0, _ => none
  | _ + 1, [] => some []
  | fuel + 1, .name n :: ts =>
      match defs n, ts with
      | some (.object body), ts => expand defs fuel (body ++ ts)
      | some (.function body), .lparen :: ts =>
          (closing 0 ts).bind fun r => (expand defs fuel r.1).bind fun a => expand defs fuel (substitute a body ++ r.2)
      | _, ts => (expand defs fuel ts).map (.name n :: ·)
  | fuel + 1, t :: ts => (expand defs fuel ts).map (t :: ·)

end SysvDev.Cpp
