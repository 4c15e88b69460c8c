import Reckoner.Binary64.Text
import Reckoner.Text.Quoted

/-!
# Log records

What is noted for the reader of a log: a variable that no expression can refer to, a name that stood
for zero because it is in no table, and the value of an expression. A record is written under the
name of its logger, with a word for how grave it is. A `Logged α` is a value together with the
records written on the way to it, in order.
-/

namespace Reckoner

open Text (quote)

/-- How grave a record is. -/
inductive Level where
  | debug | warning
deriving DecidableEq, Repr

/-- The word for a level. -/
def Level.word : Level → String
  | .debug => "DEBUG"
  | .warning => "WARNING"

/-- What a record is about. -/
inductive Topic where
  | configuration | solution
deriving DecidableEq, Repr

/-- The name of the logger for a topic. -/
def Topic.logger : Topic → String
  | .configuration => "exprsolve.config"
  | .solution => "exprsolve.solver"

/-- What a log shows of a record. -/
structure LogLine where
  level : String
  logger : String
  text : String
deriving DecidableEq, Repr

/-- A record of the log. -/
inductive LogRecord where
  /-- No expression can refer to the variable `name`. -/
  | unreachable (name : String)
  /-- The variable `name` is in no table and stood for zero. -/
  | defaulted (name : String)
  | solved (expression : String) (value : Float)
deriving DecidableEq

namespace LogRecord

/-- How grave a record is. -/
def level : LogRecord → Level
  | .unreachable _ => .warning
  | .defaulted _ | .solved _ _ => .debug

/-- What a record is about. -/
def topic : LogRecord → Topic
  | .unreachable _ | .defaulted _ => .configuration
  | .solved _ _ => .solution

/-- A record in words. -/
def message : LogRecord → String
  | .unreachable name =>
    "Variable " ++ quote name ++ " can never be referenced: names are lowercase a-z only"
  | .defaulted name => "Variable " ++ quote name ++ " not in table, using 0.0"
  | .solved expression value => "Solved " ++ quote expression ++ " = " ++ Binary64.text value

/-- A record as it is written. -/
def written (r : LogRecord) : LogLine := ⟨r.level.word, r.topic.logger, r.message⟩

end LogRecord

/-- A value with the records written on the way to it. -/
structure Logged (α : Type) where
  log : List LogRecord
  value : α

namespace Logged

instance : Monad Logged where
  pure v := ⟨[], v⟩
  bind x f := ⟨x.log ++ (f x.value).log, (f x.value).value⟩

@[simp] theorem pure_log (v : α) : (pure v : Logged α).log = [] := rfl

@[simp] theorem pure_value (v : α) : (pure v : Logged α).value = v := rfl

@[simp] theorem bind_log (x : Logged α) (f : α → Logged β) :
    (x >>= f).log = x.log ++ (f x.value).log := rfl

@[simp] theorem bind_value (x : Logged α) (f : α → Logged β) :
    (x >>= f).value = (f x.value).value := rfl

end Logged

end Reckoner
