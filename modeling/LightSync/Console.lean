/-!
# Console

What the library tells the people who run it. A line belongs to a scope, whose name it carries
in brackets; debug lines are written only for a scope that is verbose. The details that may
accompany a line are of any type.
-/

set_option autoImplicit false

namespace LightSync
namespace Console

inductive Level where
  | debug
  | info
  | warn
  | error
  deriving DecidableEq, Repr

/-- A line on the console. -/
structure Line (δ : Type) where
  level : Level
  text : String
  details : Option δ
  deriving DecidableEq, Repr

/-- A source of lines. -/
structure Scope where
  name : String
  verbose : Bool
  deriving DecidableEq, Repr

/-- A scope is verbose on demand, and always where software is being developed. -/
def scope (name : String) (verbose : Bool) (environment : Option String) : Scope :=
  ⟨name, verbose || environment == some "development"⟩

/-- What a scope writes for a message: nothing for a debug message of a quiet one. Plain
information carries no details. -/
def Scope.write {δ : Type} (s : Scope) (level : Level) (message : String) (details : Option δ) :
    List (Line δ) :=
  let name := s.name
  let text := s!"[{name}] {message}"
  match level with
  | .debug => if s.verbose then [⟨.debug, text, details⟩] else []
  | .info => [⟨.info, text, none⟩]
  | .warn => [⟨.warn, text, details⟩]
  | .error => [⟨.error, text, details⟩]

end Console
end LightSync
