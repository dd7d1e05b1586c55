import TinyBasic.Parse.Expression

/-!
# Command — reading a line

A line is a statement, which may have a line number in front, or the single word `QUIT`. The
grammar of statements:

* `PRINT [item {"," item}]` up to the end of the line, where an item is a string or an expression
* `IF expr RELOP expr THEN statement`
* `GOTO expr`, `GOSUB expr`
* `INPUT VAR {"," VAR}`
* `LET VAR "=" expr`
* `LIST [NUM]`
* `RETURN`, `CLEAR`, `RUN`, `END`
* an expression

As with expressions, a production gives its tree and the number of tokens that it read.
-/

namespace TinyBasic
namespace Parse

/-! ## Parts of statements -/

/-- An item of `PRINT`. -/
def printItem (fin : Ending) (ts : List Token) : Except ParseError (Tree × Nat) :=
  match ts with
  | [] => expr fin ts
  | t :: _ => if t.kind = .str then .ok (.text t.unquoted, 1) else expr fin ts

/-- The items of `PRINT`, of which there is at least one. They go on to the end of the line. -/
def printItems (fin : Ending) (ts : List Token) : Except ParseError (List Tree × Nat) := do
  let (item, n) ← printItem fin ts
  match _ : ts.drop n with
  | [] => return ([item], n)
  | t :: rest =>
      if t.kind ≠ .comma then
        throw (fin.unexpected .comma (t :: rest))
      else if rest = [] then
        throw (fin.unexpected .expression rest)
      else
        let (items, m) ← printItems fin rest
        return (item :: items, n + 1 + m)
termination_by ts.length
decreasing_by
  have hlen := congrArg List.length ‹ts.drop n = t :: rest›
  simp only [List.length_drop, List.length_cons] at hlen
  omega

/-- The names of `INPUT` after the first. A name that follows without a comma is an error, while
anything else ends the list. -/
def moreNames (fin : Ending) (ts : List Token) : Except ParseError (List String × Nat) :=
  match ts with
  | [] => return ([], 0)
  | t :: rest =>
      match t.kind with
      | .comma => do
          let v ← expect fin .var .var rest
          let (names, n) ← moreNames fin (rest.drop 1)
          return (v.text :: names, 1 + 1 + n)
      | .var => .error (fin.unexpected .comma ts)
      | _ => return ([], 0)
termination_by ts.length
decreasing_by
  simp only [List.length_drop, List.length_cons]
  omega

/-- The word `THEN`. -/
def expectThen (fin : Ending) (ts : List Token) : Except ParseError Unit :=
  match ts with
  | [] => .error (fin.unexpected .thenKw ts)
  | t :: _ => if t.keyword? = some .thenKw then .ok () else .error (fin.unexpected .thenKw ts)

/-! ## Statements, each without its keyword -/

/-- What follows `PRINT`. -/
def printStatement (fin : Ending) (ts : List Token) : Except ParseError (Tree × Nat) :=
  if ts = [] then
    return (.print [], 0)
  else do
    let (items, n) ← printItems fin ts
    return (.print items, n)

/-- What follows `GOTO`. -/
def gotoStatement (fin : Ending) (ts : List Token) : Except ParseError (Tree × Nat) :=
  if ts = [] then
    .error (fin.unexpected .num ts)
  else do
    let (target, n) ← expr fin ts
    return (.goto target, n)

/-- What follows `GOSUB`. -/
def gosubStatement (fin : Ending) (ts : List Token) : Except ParseError (Tree × Nat) :=
  if ts = [] then
    .error (fin.unexpected .expression ts)
  else do
    let (target, n) ← expr fin ts
    return (.gosub target, n)

/-- What follows `INPUT`. -/
def inputStatement (fin : Ending) (ts : List Token) : Except ParseError (Tree × Nat) := do
  let v ← expect fin .var .var ts
  let (names, n) ← moreNames fin (ts.drop 1)
  return (.input (v.text :: names), 1 + n)

/-- What follows `LET`. -/
def letStatement (fin : Ending) (ts : List Token) : Except ParseError (Tree × Nat) := do
  let v ← expect fin .var .var ts
  let op ← expect fin .relop .relop (ts.drop 1)
  -- any relational operator is read here, and only then looked at
  if op.text ≠ "=" then
    throw (fin.reject .equal op (ts.drop 2))
  let (value, n) ← expr fin (ts.drop 2)
  return (.assign v.text value, 2 + n)

/-- What follows `LIST`. -/
def listStatement (fin : Ending) (ts : List Token) : Except ParseError (Tree × Nat) :=
  match ts with
  | [] => return (.listAll, 0)
  | t :: rest =>
      if t.kind = .num then do
        return (.listLine (.num (← number fin false t rest)), 1)
      else
        .error (fin.unexpected .num ts)

/-! ## Statements and lines -/

/-- A reading that began one token earlier. -/
def afterKeyword (reading : Except ParseError (Tree × Nat)) : Except ParseError (Tree × Nat) := do
  let (tree, n) ← reading
  return (tree, 1 + n)

/-- A statement. -/
def statement (fin : Ending) (ts : List Token) : Except ParseError (Tree × Nat) :=
  match ts with
  | [] => expr fin ts
  | t :: rest =>
      match t.keyword? with
      | none => if t.kind = .str then .error (fin.unexpected .expression ts) else expr fin ts
      | some .print => afterKeyword (printStatement fin rest)
      | some .ifKw => do
          let (left, n) ← expr fin rest
          let op ← expect fin .relop .relop (rest.drop n)
          let (right, m) ← expr fin (rest.drop (n + 1))
          expectThen fin (rest.drop (n + 1 + m))
          let (body, k) ← statement fin (rest.drop (n + 1 + m + 1))
          return (.ifThen (.compare (.ofText op.text) left right) body, 1 + (n + 1 + m + 1 + k))
      | some .goto => afterKeyword (gotoStatement fin rest)
      | some .input => afterKeyword (inputStatement fin rest)
      | some .letKw => afterKeyword (letStatement fin rest)
      | some .gosub => afterKeyword (gosubStatement fin rest)
      | some .returnKw => return (.ret, 1)
      | some .clear => return (.clear, 1)
      | some .list => afterKeyword (listStatement fin rest)
      | some .run => return (.run, 1)
      | some .endKw => return (.finish, 1)
      | some .thenKw | some .quit => .error (fin.unexpected .statement ts)
termination_by ts.length
decreasing_by
  simp only [List.length_drop, List.length_cons]
  omega

/-- The end of the line. -/
def endOfLine (fin : Ending) (ts : List Token) : Except ParseError Unit :=
  match ts, fin with
  -- tokens may also run out because the scan failed
  | [], .complete _ => .ok ()
  | _, _ => .error (fin.unexpected .endOfLine ts)

/-- A statement that takes up the rest of the line. -/
def wholeStatement (fin : Ending) (ts : List Token) : Except ParseError Tree := do
  let (tree, n) ← statement fin ts
  endOfLine fin (ts.drop n)
  return tree

/-- A whole line: a number at its start is a line number. -/
def line (fin : Ending) (ts : List Token) : Except ParseError Tree :=
  match ts with
  | [] => wholeStatement fin ts
  | t :: rest =>
      if t.kind = .num then do
        let n ← number fin false t rest
        return .numbered n (← wholeStatement fin rest)
      else
        wholeStatement fin ts

end Parse

/-! ## Commands -/

/-- What a line asks for. -/
inductive Command where
  | line (tree : Tree)
  | quit
  deriving DecidableEq, Repr

namespace Parse

/-- A command: the word `QUIT` at the start of a line is one only if it is the whole line. -/
def command (fin : Ending) (ts : List Token) : Except ParseError Command :=
  match ts with
  | [] => do return .line (← line fin ts)
  | t :: rest =>
      if t.keyword? = some .quit then do
        endOfLine fin rest
        return .quit
      else do
        return .line (← line fin ts)

end Parse

/-- The tree of a line of text. -/
def Tree.ofText (text : String) : Except ParseError Tree :=
  let scan := Scan.ofText text
  Parse.line scan.ending scan.tokens

/-- The command that a line of text gives. -/
def Command.ofText (text : String) : Except ParseError Command :=
  let scan := Scan.ofText text
  Parse.command scan.ending scan.tokens

end TinyBasic
