import DeadExports.Ignore.Glob

/-!
# Matching machines

Before the rules of a file apply, matching machines are built for its globs. A
glob that is compared with a path as it stands needs none. One that ends in a
fixed extension has a machine to itself; of the others those for single names
share one machine and those for whole paths share another.

A machine can be refused: its expressions may nest at most `depthLimit` deep, and
it may take at most `machineLimit` bytes. Only the sizes of expressions decide
about that, so no machine is built here; what one would accept is the pattern of
its expression.
-/

namespace DeadExports.Ignore

def depthLimit : Nat := 250

def machineLimit : Nat := 10 * 1024 * 1024

inductive Refusal where
  | tooDeep (number : Nat)
  | tooLarge
  deriving DecidableEq, Repr

def Refusal.message : Refusal → String
  | .tooDeep number =>
      let number := toString number
      s!"error parsing pattern {number}"
  | .tooLarge => "error building NFA"

/-- Whether a whole expression is nested too deep. It is a sequence together with
the marks for the start and the end of a path. -/
def Expression.isTooDeep (expression : Expression) : Bool :=
  expression.depth + 1 > depthLimit

def Expression.wholeSpelling (expression : Expression) : Text :=
  (expression.spelling.between "(?-u)^" "$").text

/-- What one of its expressions adds to a machine: two states for the ends of the
path, two for the ends of the match and one for accepting. -/
def Expression.share (expression : Expression) : Nat :=
  expression.cost + 5 * stateCost

/-- How many bytes a machine takes. Several expressions need a state that leads to
each of them and one where they meet. -/
def machineCost (expressions : List Expression) : Nat :=
  stateCost + (expressions.map Expression.share).foldl Nat.add 0 +
    (if expressions.length ≤ 1 then 0
      else 2 * stateCost + branchCost * expressions.length)

def refusal? (expressions : List Expression) : Option Refusal :=
  match expressions.findIdx? Expression.isTooDeep with
  | some number => some (.tooDeep number)
  | none => if machineCost expressions > machineLimit then some .tooLarge else none

/-! ## Which machine a glob belongs to -/

inductive Method where
  /-- By comparing, without a machine. -/
  | comparison
  /-- By a machine of its own, once the extension agrees. -/
  | extension
  /-- By the machine for names. -/
  | name
  /-- By the machine for paths. -/
  | path
  deriving DecidableEq, Repr

def Token.isLiteral (condition : Char → Bool) : Token → Bool
  | .literal c => condition c
  | _ => false

def Token.isWithinName : Token → Bool
  | .literal c => c ≠ '/'
  | .any | .star => true
  | _ => false

/-- Whether constructs are a dot and an extension behind anything. -/
def isAnyWithExtension : List Token → Bool
  | .star :: .literal '.' :: rest => rest.all (Token.isLiteral fun c => c ≠ '.' && c ≠ '/')
  | _ => false

def endsInExtension (tokens : List Token) : Bool :=
  let inExtension : Token → Bool := Token.isLiteral fun c => c ≠ '.' && c ≠ '/'
  match tokens.reverse.dropWhile inExtension with
  | .literal '.' :: _ => true
  | _ => false

/-- Whether constructs are fixed characters, perhaps with everything below. -/
def isFixed (tokens : List Token) : Bool :=
  let isChar : Token → Bool := Token.isLiteral fun _ => true
  !tokens.isEmpty &&
    (tokens.all isChar || (tokens.dropLast.all isChar && tokens.getLast? = some .below))

def methodOf (tokens : List Token) : Method :=
  let compared : Bool :=
    match tokens with
    | .above :: rest =>
        (!rest.isEmpty && rest.all (Token.isLiteral fun _ => true)) || isAnyWithExtension rest
    | _ => isFixed tokens
  if compared then .comparison
  else if endsInExtension tokens then .extension
  else
    match tokens with
    | .above :: rest => if !rest.isEmpty && rest.all Token.isWithinName then .name else .path
    | _ => .path

/-! ## The machines of a file -/

/-- A machine that could not be built, with the spelling of the expression when it
was for that one only. -/
structure MachineProblem where
  spelling : Option Text
  cause : Refusal
  deriving DecidableEq, Repr

def MachineProblem.message (problem : MachineProblem) : String :=
  let cause := problem.cause.message
  match problem.spelling with
  | none => cause
  | some spelling =>
      let spelling := String.ofList spelling
      s!"error parsing glob '{spelling}': {cause}"

/-- The first machine of some globs that cannot be built: those for single globs
come first. -/
def machineProblem? (globs : List Glob) : Option MachineProblem :=
  let expressionsBy (method : Method) : List Expression :=
    (globs.filter fun glob => methodOf glob.tokens = method).map Glob.expression
  let alone (expression : Expression) : Option MachineProblem :=
    (refusal? [expression]).map fun cause => ⟨some expression.wholeSpelling, cause⟩
  let shared (method : Method) : Option MachineProblem :=
    (refusal? (expressionsBy method)).map fun cause => ⟨none, cause⟩
  ((expressionsBy .extension).findSome? alone).or ((shared .name).or (shared .path))

end DeadExports.Ignore
