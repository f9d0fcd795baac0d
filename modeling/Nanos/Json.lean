import Mathlib.Data.List.Basic

set_option autoImplicit false

/-!
# `runtime/json.c`: the JSON parser

A `parser` is a closure fed one `character` at a time; it returns the parser for the next
character. The JSON parser is a chain of such closures: each sub-parser (for an object, an
attribute, a value, an array, a string, a number, a boolean or `null`) is allocated with the
completion and error closures of the parser that started it, and the active parser is the
innermost one. So the state of the parser is the stack of the live sub-parsers, the active
one first and the top-level `json_p` last; a completion returns to the parser below, and an
error passes down the whole stack to `json_error`, which reports it and returns the top-level
parser.

Allocation is modelled as always succeeding: the `failed to allocate` paths are not modelled.
The `finish` and `err` closures of `json_parser` are the observable behaviour; their calls are
the events of a step. Tuples are kept as lists of attributes; `set` replaces an attribute of
the same name in place.
-/

namespace Nanos.Json

/-- A `character` fed to a parser: a code point, or `CHARACTER_INVALID`, which the caller
    feeds after the last character of its input. -/
inductive Character where
  | char (c : Char)
  | invalid
deriving DecidableEq, Repr

mutual
/-- The values that sub-parsers hand to their completion closures: a string, or a tuple. A
    number, a boolean, `null` and an array complete with `0`, which is `none` here. -/
inductive Value where
  | string (s : List Char)
  | tuple (t : Tuple)

inductive Tuple where
  | nil
  | cons (name : List Char) (v : Value) (rest : Tuple)
end

deriving instance DecidableEq for Value, Tuple
deriving instance Repr for Value, Tuple

/-- `set(t, intern(name), v)`: the attribute `name` takes the value `v`. -/
def Tuple.set : Tuple → List Char → Value → Tuple
  | .nil, name, v => .cons name v .nil
  | .cons name' v' rest, name, v =>
    if name' = name then .cons name v rest else .cons name' v' (rest.set name v)

/-- The error strings the parser reports. -/
inductive ParseError where
  /-- `"unexpected end of input"` -/
  | endOfInput
  /-- `"unexpected character %c"` -/
  | unexpectedCharacter (c : Character)
  /-- `"no digits found"` -/
  | noDigits
  /-- `"unexpected decimal point"` -/
  | decimalPoint
  /-- `"empty attribute name"` -/
  | emptyName
deriving DecidableEq, Repr

/-- A call of the `finish` or the `err` closure given to `json_parser`. -/
inductive Event where
  | finish (result : Option Value)
  | error (err : ParseError)
deriving DecidableEq, Repr

inductive ObjState where
  | attrBegin
  | attrEnd
deriving DecidableEq, Repr

inductive AttrState where
  | name
  | value
deriving DecidableEq, Repr

inductive ArrayState where
  | elemBegin
  | elemEnd
deriving DecidableEq, Repr

/-- A live parser with its fields. The `parent_obj` of an attribute parser is the tuple of
    the object parser below it, so it is not repeated here; its `name` is `[]` until the name
    parser completes. -/
inductive Frame where
  | json
  | value
  | obj (obj : Tuple) (state : ObjState)
  | attr (name : List Char) (state : AttrState)
  | array (state : ArrayState)
  | string (s : List Char) (escape : Bool)
  | number (digitFound fractional : Bool)
  | boolean (value : Bool) (charCount : ℕ)
  | null (charCount : ℕ)
deriving DecidableEq, Repr

def charIsWhitespace : Character → Bool
  | .char c => c ∈ [' ', '\n', '\r', '\t']
  | .invalid => false

def charIsNumeric : Character → Bool
  | .char c => c ∈ ['1', '2', '3', '4', '5', '6', '7', '8', '9', '0', '.']
  | .invalid => false

@[simp] theorem charIsWhitespace_invalid : charIsWhitespace .invalid = false := rfl

@[simp] theorem charIsNumeric_invalid : charIsNumeric .invalid = false := rfl

/-- A step: the stack of parsers for the next character, and the calls of `finish` and
    `err` it made. -/
abbrev Step := List Frame × List Event

/-- `apply(e, err)` in a parser, on the stack below it: `json_attr_error`,
    `json_obj_attr_error`, `json_array_elem_error` and `json_value_error` each free their
    parser and pass `err` on, until `json_error` reports it and returns the top-level
    parser. -/
def raise (err : ParseError) : List Frame → Step
  | [] => ([], [])
  | .json :: rest => (.json :: rest, [.error err])
  | _ :: rest => raise err rest

/-- `apply(c, result)` in a parser, on the stack below it: the completion closure of the
    parser below. -/
def complete (result : Option Value) : List Frame → Step
  -- `json_complete`
  | .json :: rest => (.json :: rest, [.finish result])
  -- `json_value_complete`: the value parser passes the result on and goes
  | .value :: rest => complete result rest
  -- `json_attr_name_complete`
  | .attr _ .name :: rest =>
    let name := match result with
      | some (.string s) => s
      | _ => []
    if name.length = 0 then raise .emptyName rest else (.attr name .value :: rest, [])
  -- `json_attr_value_complete`, which sets the attribute in `parent_obj` and completes
  -- with it to `json_obj_attr_complete`
  | .attr name .value :: .obj o _ :: rest =>
    let o := match result with
      | some v => o.set name v
      | none => o
    (.obj o .attrEnd :: rest, [])
  -- `json_obj_attr_complete`
  | .obj o _ :: rest => (.obj o .attrEnd :: rest, [])
  -- `json_array_elem_complete`: the element is discarded
  | .array _ :: rest => (.array .elemEnd :: rest, [])
  -- parsers that start no sub-parser have no completion closure
  | stk => (stk, [])

/-- `json_string_parse`, for the string parser `string s escape` on the stack `rest`. -/
def jsonStringParse (s : List Char) (escape : Bool) (i : Character) (rest : List Frame) : Step :=
  match i with
  | .invalid => raise .endOfInput rest
  | .char c =>
    if !escape then
      if c = '"' then complete (some (.string s)) rest
      else if c = '\\' then (.string s true :: rest, [])
      else (.string (s ++ [c]) false :: rest, [])
    else
      let c := match c with
        | 'n' => '\n'
        | 't' => '\t'
        | 'r' => '\r'
        | 'b' => Char.ofNat 8
        | 'f' => Char.ofNat 12
        | c => c
      (.string (s ++ [c]) false :: rest, [])

/-- `json_number_parse`; the flag asks for the character to be fed again to the parser that
    the completion returns (`return apply(next, in)`). -/
def jsonNumberParse (digitFound fractional : Bool) (i : Character) (rest : List Frame) :
    Step × Bool :=
  if !charIsNumeric i then
    if !digitFound then (raise .noDigits rest, false) else (complete none rest, true)
  else if i = .char '.' then
    if !fractional then ((.number false true :: rest, []), false)
    else (raise .decimalPoint rest, false)
  else ((.number true fractional :: rest, []), false)

/-- `parse_literal` in the parser `self` at `char_index`, with the caller's `char_count++`
    when it returns `self`: `next` is the parser with the count moved on. -/
def parseLiteral (next : Frame) (i : Character) (charIndex : ℕ) (literal : List Char)
    (rest : List Frame) : Step :=
  if i ≠ .char (literal.getD charIndex ' ') then raise (.unexpectedCharacter i) rest
  else if charIndex = literal.length - 1 then complete none rest
  else (next :: rest, [])

def jsonBooleanParse (value : Bool) (charCount : ℕ) (i : Character) (rest : List Frame) : Step :=
  parseLiteral (.boolean value (charCount + 1)) i charCount
    (if value then ['t', 'r', 'u', 'e'] else ['f', 'a', 'l', 's', 'e']) rest

def jsonNullParse (charCount : ℕ) (i : Character) (rest : List Frame) : Step :=
  parseLiteral (.null (charCount + 1)) i charCount ['n', 'u', 'l', 'l'] rest

/-- `json_value_parse`, for a value parser on the stack `rest`. A number parser starts from
    `json_number_parser(h, in, c, e)`, which feeds it `in` unless `in` is `-`. -/
def jsonValueParse (i : Character) (rest : List Frame) : Step :=
  if charIsWhitespace i then (.value :: rest, [])
  else match i with
  | .invalid => raise .endOfInput rest
  | .char c =>
    if charIsNumeric i then (jsonNumberParse false false i (.value :: rest)).1
    else match c with
      | '"' => (.string [] false :: .value :: rest, [])
      | '{' => (.obj .nil .attrBegin :: .value :: rest, [])
      | '[' => (.array .elemBegin :: .value :: rest, [])
      | '-' => (.number false false :: .value :: rest, [])
      | 't' => (.boolean true 1 :: .value :: rest, [])
      | 'f' => (.boolean false 1 :: .value :: rest, [])
      | 'n' => (.null 1 :: .value :: rest, [])
      | _ => raise (.unexpectedCharacter i) rest

/-- `json_attr_parse`. In the name state it starts a string parser for the name and feeds
    it `in`; in the value state it skips whitespace, takes `:` and starts a value parser. -/
def jsonAttrParse (name : List Char) (state : AttrState) (i : Character) (rest : List Frame) :
    Step :=
  match i with
  | .invalid => raise .endOfInput rest
  | .char _ =>
    match state with
    | .name => jsonStringParse [] false i (.attr name .name :: rest)
    | .value =>
      if charIsWhitespace i then (.attr name .value :: rest, [])
      else if i ≠ .char ':' then raise (.unexpectedCharacter i) rest
      else (.value :: .attr name .value :: rest, [])

/-- `json_obj_parse`: whitespace is skipped in both states. -/
def jsonObjParse (obj : Tuple) (state : ObjState) (i : Character) (rest : List Frame) : Step :=
  if charIsWhitespace i then (.obj obj state :: rest, [])
  else match i with
  | .invalid => raise .endOfInput rest
  | .char c =>
    match state with
    | .attrBegin =>
      if c = '"' then (.attr [] .name :: .obj obj state :: rest, [])
      else if c = '}' then complete (some (.tuple obj)) rest
      else raise (.unexpectedCharacter i) rest
    | .attrEnd =>
      if c = ',' then (.obj obj .attrBegin :: rest, [])
      else if c = '}' then complete (some (.tuple obj)) rest
      else raise (.unexpectedCharacter i) rest

/-- `json_array_parse`: `]` is tested before the state, and whitespace is not skipped; in
    the element-begin state a value parser is started and fed `in`. -/
def jsonArrayParse (state : ArrayState) (i : Character) (rest : List Frame) : Step :=
  match i with
  | .invalid => raise .endOfInput rest
  | .char c =>
    if c = ']' then complete none rest
    else match state with
    | .elemBegin => jsonValueParse i (.array state :: rest)
    | .elemEnd =>
      if c = ',' then (.array .elemBegin :: rest, [])
      else raise (.unexpectedCharacter i) rest

/-- `json_parse`, the top-level parser: it skips whitespace and `CHARACTER_INVALID`, starts
    an object parser on `{`, and reports any other character. -/
def jsonParse (i : Character) (rest : List Frame) : Step :=
  if charIsWhitespace i || i = .invalid then (.json :: rest, [])
  else if i = .char '{' then (.obj .nil .attrBegin :: .json :: rest, [])
  else (.json :: rest, [.error (.unexpectedCharacter i)])

/-- `apply(p, in)` for the active parser `p`, the head of the stack. A number fed a
    character that ends it completes and feeds that character to the parser the completion
    returns; `fuel` bounds that chain, and the length of the stack plus one is enough. -/
def parseChar : ℕ → Character → List Frame → Option Step
  | 0, _, _ => none
  | _ + 1, _, [] => some ([], [])
  | fuel + 1, i, f :: rest =>
    match f with
    | .json => some (jsonParse i rest)
    | .value => some (jsonValueParse i rest)
    | .obj o st => some (jsonObjParse o st i rest)
    | .attr n st => some (jsonAttrParse n st i rest)
    | .array st => some (jsonArrayParse st i rest)
    | .string s esc => some (jsonStringParse s esc i rest)
    | .number df fr =>
      let r := jsonNumberParse df fr i rest
      if r.2 then (parseChar fuel i r.1.1).map fun r' => (r'.1, r.1.2 ++ r'.2)
      else some r.1
    | .boolean v n => some (jsonBooleanParse v n i rest)
    | .null n => some (jsonNullParse n i rest)

def parserFeed : List Frame → List Character → Option Step
  | stk, [] => some (stk, [])
  | stk, i :: is => do
    let r ← parseChar (stk.length + 1) i stk
    let r' ← parserFeed r.1 is
    pure (r'.1, r.2 ++ r'.2)

def jsonParser : List Frame := [.json]

/-- `parse_string` of the unit tests: the text, then `CHARACTER_INVALID`. -/
def parseString (s : String) : Option Step :=
  parserFeed jsonParser (s.toList.map .char ++ [.invalid])

/-- A space after an array element is rejected, since the element-end state of
    `json_array_parse` does not skip whitespace: the text is valid JSON, yet three errors and no
    result are reported. A comma before the closing brace is accepted, and the object finished. -/
theorem json_array_space_rejected :
    parseString "\x7b\"a\":[1 ]\x7d" = some ([.json],
      [.error (.unexpectedCharacter (.char ' ')), .error (.unexpectedCharacter (.char ']')),
        .error (.unexpectedCharacter (.char '\x7d'))]) ∧
    parseString "\x7b\"a\":\"b\",\x7d" =
      some ([.json], [.finish (some (.tuple (.cons ['a'] (.string ['b']) .nil)))]) :=
  ⟨rfl, rfl⟩

/-! ## Fuel

A completion never makes the stack longer, so a number that completes hands its character to a
shorter stack; the length of the stack plus one is enough fuel for `parseChar`. -/

theorem raise_length_le (err : ParseError) (stk : List Frame) :
    (raise err stk).1.length ≤ stk.length := by
  fun_induction raise err stk with
  | case1 => simp
  | case2 => simp
  | case3 f rest _ ih => simp only [List.length_cons]; omega

theorem complete_length_le (result : Option Value) (stk : List Frame) :
    (complete result stk).1.length ≤ stk.length := by
  fun_induction complete result stk with
  | case2 rest ih => simp only [List.length_cons]; omega
  | case3 _ rest _ _ =>
    have := raise_length_le .emptyName rest
    simp only [List.length_cons]; omega
  | _ => simp

/-- The number parser asks for its character to be fed again only when it has completed. -/
theorem jsonNumberParse_refeed {digitFound fractional : Bool} {i : Character}
    {rest : List Frame} (h : (jsonNumberParse digitFound fractional i rest).2 = true) :
    (jsonNumberParse digitFound fractional i rest).1 = complete none rest := by
  unfold jsonNumberParse at h ⊢
  -- every other branch answers with the flag unset
  split_ifs at h ⊢
  rfl

theorem parseChar_isSome (i : Character) :
    ∀ (fuel : ℕ) (stk : List Frame), stk.length < fuel → (parseChar fuel i stk).isSome
  | 0, _, h => absurd h (Nat.not_lt_zero _)
  | _ + 1, [], _ => rfl
  | fuel + 1, f :: rest, h => by
    cases f with
    | number df fr =>
      simp only [parseChar]
      split
      · -- the completed number feeds its character to the parser below, on a shorter stack
        rename_i hre
        have hlen : (jsonNumberParse df fr i rest).1.1.length < fuel := by
          rw [jsonNumberParse_refeed hre]
          have := complete_length_le none rest
          simp only [List.length_cons] at h
          omega
        simpa using parseChar_isSome i fuel _ hlen
      · rfl
    | _ => rfl


theorem parseChar_fuel (i : Character) :
    ∀ {fuel fuel' : ℕ} {stk : List Frame}, stk.length < fuel → stk.length < fuel' →
      parseChar fuel i stk = parseChar fuel' i stk
  | 0, _, _, h, _ => absurd h (Nat.not_lt_zero _)
  | _ + 1, 0, _, _, h => absurd h (Nat.not_lt_zero _)
  | _ + 1, _ + 1, [], _, _ => rfl
  | fuel + 1, fuel' + 1, f :: rest, h, h' => by
    cases f with
    | number df fr =>
      simp only [parseChar]
      split
      · rename_i hre
        have hlen : (jsonNumberParse df fr i rest).1.1.length ≤ rest.length := by
          rw [jsonNumberParse_refeed hre]
          exact complete_length_le none rest
        simp only [List.length_cons] at h h'
        rw [@parseChar_fuel i fuel fuel' _ (by omega) (by omega)]
      · rfl
    | _ => rfl

/-! ## The stack invariant

Each sub-parser is started by one parser with that parser's completion and error closures, so a
stack the parser can reach is a chain of `Child` links down to the top-level parser. A step keeps
the chain, reports at most one event, and an error returns the whole chain to `json_parse`. -/

/-- `Child f g`: the parser `f` is started by `g`, with the closures of `g`. -/
inductive Child : Frame → Frame → Prop
  | objJson {o : Tuple} {state : ObjState} : Child (.obj o state) .json
  | objValue {o : Tuple} {state : ObjState} : Child (.obj o state) .value
  | attr {name : List Char} {state : AttrState} {o : Tuple} :
      Child (.attr name state) (.obj o .attrBegin)
  | valueAttr {name : List Char} : Child .value (.attr name .value)
  | valueArray : Child .value (.array .elemBegin)
  | array {state : ArrayState} : Child (.array state) .value
  | stringValue {s : List Char} {escape : Bool} : Child (.string s escape) .value
  | stringName {s : List Char} {escape : Bool} {name : List Char} :
      Child (.string s escape) (.attr name .name)
  | number {digitFound fractional : Bool} : Child (.number digitFound fractional) .value
  | boolean {value : Bool} {charCount : ℕ} : Child (.boolean value charCount) .value
  | null {charCount : ℕ} : Child (.null charCount) .value

/-- The stacks of live parsers: `json_p` at the bottom, each other parser on the one that
    started it. -/
inductive Wf : List Frame → Prop
  | json : Wf [.json]
  | push {f g : Frame} {rest : List Frame} : Child f g → Wf (g :: rest) → Wf (f :: g :: rest)

theorem Child.ne_json {f g : Frame} (h : Child f g) : f ≠ .json := by
  cases h <;> simp

theorem Child.obj_update {o o' : Tuple} {st st' : ObjState} {g : Frame}
    (h : Child (.obj o st) g) : Child (.obj o' st') g := by
  cases h
  · exact .objJson
  · exact .objValue

theorem Wf.tail {f : Frame} {rest : List Frame} (h : Wf (f :: rest)) (hf : f ≠ .json) :
    Wf rest := by
  cases h with
  | json => exact absurd rfl hf
  | push _ hw => exact hw

theorem Wf.eq_of_json {rest : List Frame} (h : Wf (.json :: rest)) : rest = [] := by
  cases h with
  | json => rfl
  | push hc _ => exact absurd rfl hc.ne_json

/-- A step is good when its stack is well formed and it reported at most one event. -/
def StepOk (r : Step) : Prop := Wf r.1 ∧ r.2.length ≤ 1

theorem StepOk.of_wf {stk : List Frame} (h : Wf stk) : StepOk (stk, []) :=
  ⟨h, by simp⟩

theorem raise_cons {err : ParseError} {f : Frame} {rest : List Frame} (hf : f ≠ .json) :
    raise err (f :: rest) = raise err rest := by
  cases f <;> first | exact absurd rfl hf | rfl

/-- An error passes down every parser to `json_error`, which reports it once. -/
theorem raise_wf {err : ParseError} {stk : List Frame} (h : Wf stk) :
    raise err stk = ([.json], [.error err]) := by
  induction h with
  | json => rfl
  | push hc _ ih => rw [raise_cons hc.ne_json, ih]

theorem raise_ok {err : ParseError} {stk : List Frame} (h : Wf stk) : StepOk (raise err stk) := by
  rw [raise_wf h]
  exact ⟨.json, by simp⟩

theorem complete_ok (result : Option Value) {stk : List Frame} (h : Wf stk) :
    StepOk (complete result stk) := by
  induction h with
  | json => exact ⟨.json, by simp [complete]⟩
  | @push f g rest hc hw ih =>
    cases hc with
    | objJson => exact StepOk.of_wf (.push .objJson hw)
    | objValue => exact StepOk.of_wf (.push .objValue hw)
    | @attr name state o =>
      cases state with
      | name =>
        simp only [complete]
        split_ifs
        · exact raise_ok hw
        · exact StepOk.of_wf (.push .attr hw)
      | value =>
        -- the attribute is set in the object below, which is then in its end state
        cases hw with
        | push hco hwo => exact StepOk.of_wf (.push hco.obj_update hwo)
    | valueAttr | valueArray => exact ih
    | array => exact StepOk.of_wf (.push .array hw)
    | stringValue | stringName | number | boolean | null =>
      exact StepOk.of_wf (.push (by constructor) hw)


theorem Wf.update {f f' : Frame} {rest : List Frame} (h : Wf (f :: rest)) (hf : f ≠ .json)
    (hc : ∀ g, Child f g → Child f' g) : Wf (f' :: rest) := by
  cases h with
  | json => exact absurd rfl hf
  | push hfg hw => exact .push (hc _ hfg) hw

/-- A completion through a value parser reaches an attribute or an array parser, which
    report nothing. -/
theorem complete_value_events (result : Option Value) {rest : List Frame}
    (h : Wf (.value :: rest)) : (complete result (.value :: rest)).2 = [] := by
  cases h with
  | push hc hw =>
    cases hc with
    | valueAttr =>
      cases hw with
      | push hco _ => cases hco; rfl
    | valueArray => rfl

/-! ### One lemma for each parser -/

section Parsers

variable {i : Character} {rest : List Frame}

theorem jsonStringParse_ok {s : List Char} {escape : Bool}
    (h : Wf (.string s escape :: rest)) : StepOk (jsonStringParse s escape i rest) := by
  have hrest := h.tail (by simp)
  have hself : ∀ s' e', StepOk (.string s' e' :: rest, []) := fun _ _ =>
    .of_wf (h.update (by simp) fun _ hc => by cases hc <;> constructor)
  unfold jsonStringParse
  split
  · exact raise_ok hrest
  · split_ifs
    · exact complete_ok _ hrest
    · exact hself _ _
    · exact hself _ _
    · exact hself _ _

theorem jsonNumberParse_ok {digitFound fractional : Bool}
    (h : Wf (.number digitFound fractional :: rest)) :
    StepOk (jsonNumberParse digitFound fractional i rest).1 := by
  have hrest := h.tail (by simp)
  have hself : ∀ d f, StepOk (.number d f :: rest, []) := fun _ _ =>
    .of_wf (h.update (by simp) fun _ hc => by cases hc; constructor)
  unfold jsonNumberParse
  split_ifs
  · exact raise_ok hrest
  · exact complete_ok _ hrest
  · exact hself _ _
  · exact raise_ok hrest
  · exact hself _ _

theorem parseLiteral_ok {next : Frame} {charIndex : ℕ} {literal : List Char}
    (hnext : Wf (next :: rest)) (hrest : Wf rest) :
    StepOk (parseLiteral next i charIndex literal rest) := by
  unfold parseLiteral
  split_ifs
  · exact raise_ok hrest
  · exact complete_ok _ hrest
  · exact .of_wf hnext

theorem jsonBooleanParse_ok {value : Bool} {charCount : ℕ}
    (h : Wf (.boolean value charCount :: rest)) :
    StepOk (jsonBooleanParse value charCount i rest) :=
  parseLiteral_ok (h.update (by simp) fun _ hc => by cases hc; constructor) (h.tail (by simp))

theorem jsonNullParse_ok {charCount : ℕ} (h : Wf (.null charCount :: rest)) :
    StepOk (jsonNullParse charCount i rest) :=
  parseLiteral_ok (h.update (by simp) fun _ hc => by cases hc; constructor) (h.tail (by simp))

theorem jsonValueParse_ok (h : Wf (.value :: rest)) : StepOk (jsonValueParse i rest) := by
  have hrest := h.tail (by simp)
  unfold jsonValueParse
  split
  · exact .of_wf h
  · split
    · exact raise_ok hrest
    · split
      · -- a number parser is started on this value parser and fed the character
        exact jsonNumberParse_ok (.push .number h)
      · -- every other value starts its parser on this value parser
        split
        · exact .of_wf (.push .stringValue h)
        · exact .of_wf (.push .objValue h)
        · exact .of_wf (.push .array h)
        · exact .of_wf (.push .number h)
        · exact .of_wf (.push .boolean h)
        · exact .of_wf (.push .boolean h)
        · exact .of_wf (.push .null h)
        · exact raise_ok hrest

theorem jsonObjParse_ok {o : Tuple} {state : ObjState} (h : Wf (.obj o state :: rest)) :
    StepOk (jsonObjParse o state i rest) := by
  have hrest := h.tail (by simp)
  have hself : ∀ st, StepOk (.obj o st :: rest, []) := fun _ =>
    .of_wf (h.update (by simp) fun _ hc => hc.obj_update)
  unfold jsonObjParse
  split_ifs
  · exact hself state
  · split
    · exact raise_ok hrest
    · split
      · split_ifs
        · exact .of_wf (.push .attr h)
        · exact complete_ok _ hrest
        · exact raise_ok hrest
      · split_ifs
        · exact hself .attrBegin
        · exact complete_ok _ hrest
        · exact raise_ok hrest

theorem jsonAttrParse_ok {name : List Char} {state : AttrState}
    (h : Wf (.attr name state :: rest)) : StepOk (jsonAttrParse name state i rest) := by
  have hrest := h.tail (by simp)
  unfold jsonAttrParse
  split
  · exact raise_ok hrest
  · split
    · -- the name: a string parser is started on this attribute parser and fed the character
      exact jsonStringParse_ok (.push .stringName h)
    · split_ifs
      · exact .of_wf h
      · exact raise_ok hrest
      · exact .of_wf (.push .valueAttr h)

theorem jsonArrayParse_ok {state : ArrayState} (h : Wf (.array state :: rest)) :
    StepOk (jsonArrayParse state i rest) := by
  have hrest := h.tail (by simp)
  unfold jsonArrayParse
  split
  · exact raise_ok hrest
  · split
    · exact complete_ok _ hrest
    · split
      · -- an element: a value parser is started on this array parser and fed the character
        exact jsonValueParse_ok (.push .valueArray h)
      · split
        · exact .of_wf (h.update (by simp) fun _ hc => by cases hc; exact .array)
        · exact raise_ok hrest

theorem jsonParse_ok (h : Wf (.json :: rest)) : StepOk (jsonParse i rest) := by
  obtain rfl := h.eq_of_json
  unfold jsonParse
  split_ifs
  · exact .of_wf .json
  · exact .of_wf (.push .objJson .json)
  · exact ⟨.json, by simp⟩

end Parsers


theorem Wf.number_parent {digitFound fractional : Bool} {rest : List Frame}
    (h : Wf (.number digitFound fractional :: rest)) :
    ∃ rest', rest = .value :: rest' ∧ Wf (.value :: rest') := by
  cases h with
  | push hc hw => cases hc; exact ⟨_, rfl, hw⟩

/-- The step lemma: feeding a character keeps the stack well formed and reports at most
    one event. -/
theorem parseChar_ok (i : Character) :
    ∀ {fuel : ℕ} {stk : List Frame} {r : Step}, Wf stk → parseChar fuel i stk = some r →
      StepOk r
  | 0, _, _, _, hr => by simp [parseChar] at hr
  | _ + 1, [], _, h, _ => by cases h
  | fuel + 1, f :: rest, r, h, hr => by
    cases f with
    | number df fr =>
      simp only [parseChar] at hr
      split at hr
      · -- the number completes, silently, and its character goes to the parser below
        rename_i hre
        obtain ⟨rest', rfl, hv⟩ := h.number_parent
        obtain ⟨r', hr', rfl⟩ := Option.map_eq_some_iff.1 hr
        rw [jsonNumberParse_refeed hre] at hr' ⊢
        obtain ⟨hw, hlen⟩ := parseChar_ok i (complete_ok none hv).1 hr'
        exact ⟨hw, by rw [complete_value_events none hv]; simpa using hlen⟩
      · exact (Option.some.inj hr) ▸ jsonNumberParse_ok h
    | json => exact (Option.some.inj hr) ▸ jsonParse_ok h
    | value => exact (Option.some.inj hr) ▸ jsonValueParse_ok h
    | obj o st => exact (Option.some.inj hr) ▸ jsonObjParse_ok h
    | attr n st => exact (Option.some.inj hr) ▸ jsonAttrParse_ok h
    | array st => exact (Option.some.inj hr) ▸ jsonArrayParse_ok h
    | string s e => exact (Option.some.inj hr) ▸ jsonStringParse_ok h
    | boolean v n => exact (Option.some.inj hr) ▸ jsonBooleanParse_ok h
    | null n => exact (Option.some.inj hr) ▸ jsonNullParse_ok h

/-- The run lemma: from a well-formed stack, feeding any characters answers, keeps the stack
    well formed, and reports at most one event per character. -/
theorem parserFeed_ok : ∀ (is : List Character) {stk : List Frame}, Wf stk →
    ∃ r, parserFeed stk is = some r ∧ Wf r.1 ∧ r.2.length ≤ is.length
  | [], stk, h => ⟨(stk, []), rfl, h, by simp⟩
  | i :: is, stk, h => by
    obtain ⟨r, hr⟩ := Option.isSome_iff_exists.1 (parseChar_isSome i (stk.length + 1) stk
      (Nat.lt_succ_self _))
    obtain ⟨hw, hlen⟩ := parseChar_ok i h hr
    obtain ⟨r', hr', hw', hlen'⟩ := parserFeed_ok is hw
    refine ⟨(r'.1, r.2 ++ r'.2), ?_, hw', ?_⟩
    · simp [parserFeed, hr, hr']
    · simp only [List.length_append, List.length_cons]
      omega


/-! ### The end of input -/

/-- A step that leaves only `json_parse` and reports nothing but errors. -/
def Reset (r : Step) : Prop := r.1 = [.json] ∧ ∀ ev ∈ r.2, ∃ err, ev = .error err

theorem raise_reset {err : ParseError} {stk : List Frame} (h : Wf stk) : Reset (raise err stk) := by
  rw [raise_wf h]
  exact ⟨rfl, by simp⟩

/-- At the end of input every sub-parser reports an error, except a number with a digit,
    which completes and hands `CHARACTER_INVALID` to the parser below; so the parser is back
    at `json_parse` and has reported no result. -/
theorem parseChar_invalid :
    ∀ {fuel : ℕ} {stk : List Frame} {r : Step}, Wf stk → parseChar fuel .invalid stk = some r →
      Reset r
  | 0, _, _, _, hr => by simp [parseChar] at hr
  | _ + 1, [], _, h, _ => by cases h
  | fuel + 1, f :: rest, r, h, hr => by
    have hrest : f ≠ .json → Wf rest := h.tail
    cases f with
    | json =>
      obtain rfl := h.eq_of_json
      simp only [parseChar, jsonParse, Option.some.injEq] at hr
      subst hr
      exact ⟨rfl, by simp⟩
    | number df fr =>
      obtain ⟨rest', rfl, hv⟩ := h.number_parent
      cases df with
      | false =>
        simp only [parseChar, jsonNumberParse, charIsNumeric_invalid, Bool.not_false,
          Bool.false_eq_true, ↓reduceIte, Option.some.injEq] at hr
        subst hr
        exact raise_reset hv
      | true =>
        -- the number completes and the value's parent gets the end of input
        simp only [parseChar, jsonNumberParse, charIsNumeric_invalid, Bool.not_false,
          Bool.not_true, ↓reduceIte] at hr
        obtain ⟨r', hr', rfl⟩ := Option.map_eq_some_iff.1 hr
        obtain ⟨h1, h2⟩ := parseChar_invalid (complete_ok none hv).1 hr'
        refine ⟨h1, ?_⟩
        simpa [complete_value_events none hv] using h2
    | value | obj _ _ | attr _ _ | array _ | string _ _ | boolean _ _ | null _ =>
      simp only [parseChar, Option.some.injEq] at hr
      subst hr
      exact raise_reset (hrest (by simp))

theorem parserFeed_append (stk : List Frame) (xs ys : List Character) :
    parserFeed stk (xs ++ ys) = (parserFeed stk xs).bind fun r =>
      (parserFeed r.1 ys).map fun r' => (r'.1, r.2 ++ r'.2) := by
  induction xs generalizing stk with
  | nil => simp [parserFeed]
  | cons i xs ih =>
    simp only [List.cons_append, parserFeed, ih, Option.bind_eq_bind, Option.pure_def]
    cases parseChar (stk.length + 1) i stk with
    | none => rfl
    | some r =>
      simp only [Option.bind_some]
      cases parserFeed r.1 xs with
      | none => rfl
      | some r' =>
        simp only [Option.bind_some]
        cases parserFeed r'.1 ys <;> simp

/-- The run after a step `r`: the rest of the input fed to its stack, after its events. -/
def thenFeed (r : Step) (is : List Character) : Option Step :=
  (parserFeed r.1 is).map fun r' => (r'.1, r.2 ++ r'.2)

theorem thenFeed_silent (stk : List Frame) (is : List Character) :
    thenFeed (stk, []) is = parserFeed stk is := by
  unfold thenFeed
  cases parserFeed stk is <;> rfl

theorem parserFeed_cons {stk : List Frame} {i : Character} {r : Step} (is : List Character)
    (h : parseChar (stk.length + 1) i stk = some r) : parserFeed stk (i :: is) = thenFeed r is := by
  simp only [parserFeed, h, thenFeed, Option.bind_eq_bind, Option.bind_some, Option.pure_def]
  cases parserFeed r.1 is <;> rfl

theorem parserFeed_cons_silent {stk stk' : List Frame} {i : Character} (is : List Character)
    (h : parseChar (stk.length + 1) i stk = some (stk', [])) :
    parserFeed stk (i :: is) = parserFeed stk' is := by
  rw [parserFeed_cons is h, thenFeed_silent]

theorem parserFeed_cons_congr {stk stk' : List Frame} {i : Character} (is : List Character)
    (h : parseChar (stk.length + 1) i stk = parseChar (stk'.length + 1) i stk') :
    parserFeed stk (i :: is) = parserFeed stk' (i :: is) := by
  simp only [parserFeed, h]

/-- A number with a digit ends at a character that is not numeric: it completes, silently, and
    the character goes to the parser that the completion returns. -/
theorem parserFeed_number_end {fractional : Bool} {rest : List Frame} {t : Character}
    (is : List Character) (ht : charIsNumeric t = false) (hsilent : (complete none rest).2 = []) :
    parserFeed (.number true fractional :: rest) (t :: is) =
      parserFeed (complete none rest).1 (t :: is) := by
  have hlen := complete_length_le none rest
  have hstep : parseChar (rest.length + 1 + 1) t (.number true fractional :: rest) =
      parseChar ((complete none rest).1.length + 1) t (complete none rest).1 := by
    simp only [parseChar, jsonNumberParse, ht, Bool.not_false, Bool.not_true,
      Bool.false_eq_true, ↓reduceIte, hsilent, List.nil_append]
    rw [@parseChar_fuel t (rest.length + 1) ((complete none rest).1.length + 1) _ (by omega)
      (by omega)]
    cases parseChar ((complete none rest).1.length + 1) t (complete none rest).1 <;> rfl
  simp only [parserFeed, List.length_cons, hstep]

/-- Whatever the input, feeding it and then `CHARACTER_INVALID` answers, leaves the parser at
    `json_parse` ready for the next input, and reports at most one event per character: each
    character, fed to the parser that the characters before it leave, reports at most one. -/
theorem parseString_reset (s : String) :
    (∃ evs, parseString s = some ([.json], evs) ∧ evs.length ≤ s.toList.length + 1) ∧
    ∀ xs c ys, s.toList.map Character.char ++ [.invalid] = xs ++ c :: ys →
      ∃ r r', parserFeed jsonParser xs = some r ∧ parseChar (r.1.length + 1) c r.1 = some r' ∧
        r'.2.length ≤ 1 := by
  constructor
  · obtain ⟨r, hr, hw, hlen⟩ := parserFeed_ok (s.toList.map Character.char) Wf.json
    obtain ⟨⟨stk0, evs0⟩, hr0⟩ := Option.isSome_iff_exists.1
      (parseChar_isSome .invalid (r.1.length + 1) r.1 (Nat.lt_succ_self _))
    obtain ⟨hstk, -⟩ := parseChar_invalid hw hr0
    obtain ⟨-, hlen0⟩ := parseChar_ok .invalid hw hr0
    refine ⟨r.2 ++ evs0, ?_, ?_⟩
    · rw [parseString, jsonParser, parserFeed_append, hr]
      simp only at hstk
      simp [parserFeed, hr0, hstk]
    · simp only [List.length_append, List.length_map] at hlen hlen0 ⊢
      omega
  · -- the step of `c`, in the well-formed state the characters before it leave
    intro xs c ys _
    obtain ⟨r, hr, hw, -⟩ := parserFeed_ok xs Wf.json
    obtain ⟨r', hr'⟩ := Option.isSome_iff_exists.1
      (parseChar_isSome c (r.1.length + 1) r.1 (Nat.lt_succ_self _))
    exact ⟨r, r', hr, hr', (parseChar_ok c hw hr').2⟩

end Nanos.Json
