import DeadExports.Ignore.Expression

/-!
# Globs

A glob is read one character at a time. The characters that a construct has
looked ahead to are counted and passed over afterwards, so the reading is a
recursion on the glob itself. Groups in braces nest; the groups that are open
form a stack.

`**` has a meaning of its own only next to slashes or the ends of the glob: at
the start it stands for any directories above, in the middle for any directories
between, at the end for everything below. A bracket that is never closed is an
ordinary character, and so are all brackets after it.
-/

namespace DeadExports.Ignore

inductive GlobError where
  | invalidRange (low high : Char)
  | unclosedGroup
  | unopenedGroup
  | danglingEscape
  deriving DecidableEq, Repr

def GlobError.message : GlobError → String
  | .invalidRange low high =>
      let low := low.toString
      let high := high.toString
      s!"invalid range; '{low}' > '{high}'"
  | .unclosedGroup =>
      "unclosed alternate group; missing '\x7d' (maybe escape '\x7b' with '[\x7b]'?)"
  | .unopenedGroup =>
      "unopened alternate group; missing '\x7b' (maybe escape '\x7d' with '[\x7d]'?)"
  | .danglingEscape => "dangling '\\'"

inductive Token where
  | literal (c : Char)
  | any
  | star
  /-- `**` at the start. -/
  | above
  /-- `**` in the middle, with the slashes around it. -/
  | between
  /-- `**` at the end, with the slash before it. -/
  | below
  | chars (negated : Bool) (ranges : List (Char × Char))
  | group (expression : Expression)
  deriving DecidableEq, Repr

/-- The bytes that a range of characters stands for. Classes are matched byte by
byte, and a range runs from the last byte of its lower end to the first byte of
its upper end. -/
def byteRanges (range : Char × Char) : List (UInt8 × UInt8) :=
  let low := String.utf8EncodeChar range.1
  let high := String.utf8EncodeChar range.2
  let singles (bytes : Bytes) := bytes.map fun byte => (byte, byte)
  if range.1 = range.2 then singles low
  else
    match low.getLast?, high with
    | some last, first :: rest => singles low.dropLast ++ (last, first) :: singles rest
    | _, _ => []

def Token.expression : Token → Expression
  | .literal c => .exactly (String.utf8EncodeChar c)
  | .any => .notSlash
  | .star => .anythingWithin
  | .above => .anyOf [.optional .slash, .concat [.anything, .slash]]
  | .between => .anyOf [.slash, .concat [.slash, .anything, .slash]]
  | .below => .concat [.slash, .anything]
  | .chars negated ranges => .oneOf ⟨negated, ranges.flatMap byteRanges⟩
  | .group expression => expression

/-- The expression of some constructs, of which the latest comes first. -/
def expressionOf (tokens : List Token) : Expression :=
  .concat (tokens.reverse.map Token.expression)

structure Glob where
  tokens : List Token
  expression : Expression
  deriving DecidableEq, Repr

/-! ## Classes -/

inductive ClassReading where
  | unclosed
  | invalid (low high : Char)
  /-- The ranges, and how many characters were taken, the closing bracket
  included. -/
  | closed (ranges : List (Char × Char)) (width : Nat)
  deriving DecidableEq, Repr

/-- Reads the ranges of a class. `ranges` holds those read so far, the latest
first; `first` says whether nothing was read, and `pending` whether the latest range
waits for its upper end. -/
def readRanges :
    (ranges : List (Char × Char)) → (first pending : Bool) → (width : Nat) → Text →
      ClassReading
  | _, _, _, _, [] => .unclosed
  | ranges, first, pending, width, c :: rest =>
      if c = ']' ∧ !first then
        .closed (if pending then ('-', '-') :: ranges else ranges).reverse (width + 1)
      else if c = '-' ∧ !first ∧ !pending then readRanges ranges false true (width + 1) rest
      else
        match pending, ranges with
        | true, (low, _) :: others =>
            if c < low then .invalid low c
            else readRanges ((low, c) :: others) false false (width + 1) rest
        | _, _ => readRanges ((c, c) :: ranges) false false (width + 1) rest

def readClass : Text → Bool × ClassReading
  | [] => (false, .unclosed)
  | c :: rest =>
      if c = '!' ∨ c = '^' then (true, readRanges [] true false 1 rest)
      else (false, readRanges [] true false 0 (c :: rest))

/-! ## Stars -/

/-- Puts the construct for `**` in the place of the slash before it; after
another `**` nothing is added. -/
def replaceSlash (token : Token) : List Token → List Token
  | .above :: tokens => .above :: tokens
  | .below :: tokens => .below :: tokens
  | _ :: tokens => token :: tokens
  | [] => [token]

/-- What a star adds to the constructs so far, the latest of which comes first,
and how many further characters it takes. `before` is the character before it,
`rest` what follows it. -/
def readStar
    (inGroup : Bool) (before : Option Char) (tokens : List Token) (rest : Text) :
    List Token × Nat :=
  match rest with
  | '*' :: rest =>
      let two := (Token.star :: Token.star :: tokens, 1)
      if tokens.isEmpty then
        match rest with
        | [] => ([.above], 1)
        | c :: _ => if c = '/' then ([.above], 2) else two
      else if before ≠ some '/' ∧
          !(inGroup && (before = some ',' || before = some '\x7b')) then two
      else
        match rest with
        | [] => (replaceSlash .below tokens, 1)
        | c :: _ =>
            if c = '/' then (replaceSlash .between tokens, 2)
            else if inGroup && (c = ',' || c = '\x7d') then (replaceSlash .below tokens, 1)
            else two
  | _ => (.star :: tokens, 0)

/-! ## Groups -/

/-- A group that is open: the alternatives that are complete and the constructs
of the current one, the latest first. -/
structure Frame where
  complete : List Expression
  tokens : List Token
  deriving DecidableEq, Repr

structure GlobState where
  /-- The innermost open group, or the glob itself when none is open. -/
  frame : Frame
  /-- The groups around it, the innermost first, and at last the glob itself. -/
  outer : List Frame
  plainBrackets : Bool
  deriving DecidableEq, Repr

namespace GlobState

def initial : GlobState := ⟨⟨[], []⟩, [], false⟩

def withTokens (state : GlobState) (tokens : List Token) : GlobState :=
  { state with frame := { state.frame with tokens := tokens } }

def push (state : GlobState) (token : Token) : GlobState :=
  state.withTokens (token :: state.frame.tokens)

def openGroup (state : GlobState) : GlobState :=
  { state with frame := ⟨[], []⟩, outer := state.frame :: state.outer }

/-- Starts a further alternative; outside of groups a comma is an ordinary
character. -/
def nextAlternative (state : GlobState) : GlobState :=
  if state.outer.isEmpty then state.push (.literal ',')
  else
    { state with
      frame := ⟨expressionOf state.frame.tokens :: state.frame.complete, []⟩ }

def closeGroup (state : GlobState) : Except GlobError GlobState :=
  match state.outer with
  | [] => .error .unopenedGroup
  | frame :: outer =>
      let branches := (expressionOf state.frame.tokens :: state.frame.complete).reverse
      .ok ({ state with frame := frame, outer := outer }.push (.group (.anyOf branches)))

/-- The whole glob. A lone `**` matches everything. -/
def finish (state : GlobState) : Except GlobError Glob :=
  if !state.outer.isEmpty then .error .unclosedGroup
  else
    match state.frame.tokens with
    | [.above] => .ok ⟨[.above], .anything⟩
    | tokens => .ok ⟨tokens.reverse, expressionOf tokens⟩

end GlobState

/-- Reads a glob. `skipped` counts the characters that an earlier construct has
taken, `before` is the character just passed. -/
def readGlob :
    (skipped : Nat) → (before : Option Char) → GlobState → Text → Except GlobError Glob
  | _, _, state, [] => state.finish
  | skipped + 1, _, state, c :: rest => readGlob skipped (some c) state rest
  | 0, before, state, c :: rest =>
      if c = '?' then readGlob 0 (some c) (state.push .any) rest
      else if c = '*' then
        let (tokens, taken) := readStar (!state.outer.isEmpty) before state.frame.tokens rest
        readGlob taken (some c) (state.withTokens tokens) rest
      else if c = '[' ∧ !state.plainBrackets then
        match readClass rest with
        | (_, .unclosed) =>
            readGlob 0 (some c) { state.push (.literal '[') with plainBrackets := true } rest
        | (_, .invalid low high) => .error (.invalidRange low high)
        | (negated, .closed ranges width) =>
            readGlob width (some c) (state.push (.chars negated ranges)) rest
      else if c = '\x7b' then readGlob 0 (some c) state.openGroup rest
      else if c = '\x7d' then
        match state.closeGroup with
        | .error cause => .error cause
        | .ok state => readGlob 0 (some c) state rest
      else if c = ',' then readGlob 0 (some c) state.nextAlternative rest
      else if c = '\\' then
        match rest with
        | [] => .error .danglingEscape
        | escaped :: _ => readGlob 1 (some c) (state.push (.literal escaped)) rest
      else readGlob 0 (some c) (state.push (.literal c)) rest

def Glob.ofText (text : Text) : Except GlobError Glob :=
  readGlob 0 none .initial text

end DeadExports.Ignore
