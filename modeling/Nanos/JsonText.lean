import Nanos.Json

set_option autoImplicit false

/-!
# What `json_parser` computes on a JSON text

An abstract model of JSON values (numbers without exponents), their compact text, and what the
parser is meant to make of them: an object becomes the tuple of its members whose value is a
string or an object, set in order, so that a later member overrides an earlier one of the same
name; numbers, booleans, `null` and arrays are parsed and dropped.

`parseString_print` shows that the parser computes exactly this on the text of every object whose
attribute names are nonempty. The proof follows the text: one lemma for each kind of value, fed
to a value parser and followed by a character that ends it, and one for the elements of an array
and the members of an object; the three are tied together by mutual induction on the value.
-/

namespace Nanos.JsonText

open Nanos.Json

mutual
/-- JSON values. A number is a sign, its digits (at least one) and an optional fraction (at
    least one digit). -/
inductive Json where
  | str (s : List Char)
  | num (neg : Bool) (d : Fin 10) (ds : List (Fin 10)) (frac : Option (Fin 10 × List (Fin 10)))
  | bool (b : Bool)
  | null
  | arr (elems : Elems)
  | obj (members : Members)

inductive Elems where
  | nil
  | cons (j : Json) (rest : Elems)

inductive Members where
  | nil
  | cons (name : List Char) (j : Json) (rest : Members)
end

/-! ## The compact text of a value -/

/-- `"` and `\` are escaped by a backslash; every other character stands for itself. -/
def escape (c : Char) : List Char :=
  if c = '"' ∨ c = '\\' then ['\\', c] else [c]

def printString (s : List Char) : List Char :=
  '"' :: s.flatMap escape ++ ['"']

def digitChar (d : Fin 10) : Char :=
  Char.ofNat (48 + d.val)

def printFraction : Option (Fin 10 × List (Fin 10)) → List Char
  | none => []
  | some (f, fs) => '.' :: (f :: fs).map digitChar

def printNumber (neg : Bool) (d : Fin 10) (ds : List (Fin 10))
    (frac : Option (Fin 10 × List (Fin 10))) : List Char :=
  (if neg then ['-'] else []) ++ (d :: ds).map digitChar ++ printFraction frac

mutual
def print : Json → List Char
  | .str s => printString s
  | .num neg d ds frac => printNumber neg d ds frac
  | .bool true => ['t', 'r', 'u', 'e']
  | .bool false => ['f', 'a', 'l', 's', 'e']
  | .null => ['n', 'u', 'l', 'l']
  | .arr es => '[' :: printArr es
  | .obj ms => '\x7b' :: printObj ms

def printArr : Elems → List Char
  | .nil => [']']
  | .cons j rest => print j ++ printElems rest ++ [']']

def printElems : Elems → List Char
  | .nil => []
  | .cons j rest => ',' :: print j ++ printElems rest

def printObj : Members → List Char
  | .nil => ['\x7d']
  | .cons n j rest => printString n ++ ':' :: print j ++ printMembers rest ++ ['\x7d']

def printMembers : Members → List Char
  | .nil => []
  | .cons n j rest => ',' :: printString n ++ ':' :: print j ++ printMembers rest
end

/-! The equations of the printer, stated once so that the proofs below cite them by name. -/

theorem print_str (s : List Char) : print (.str s) = printString s := rfl

theorem print_num (neg : Bool) (d : Fin 10) (ds : List (Fin 10))
    (frac : Option (Fin 10 × List (Fin 10))) :
    print (.num neg d ds frac) = printNumber neg d ds frac := rfl

theorem print_arr (es : Elems) : print (.arr es) = '[' :: printArr es := rfl

theorem print_obj (ms : Members) : print (.obj ms) = '\x7b' :: printObj ms := rfl

theorem printArr_cons (j : Json) (rest : Elems) :
    printArr (.cons j rest) = print j ++ printElems rest ++ [']'] := rfl

theorem printElems_cons (j : Json) (rest : Elems) :
    printElems (.cons j rest) = ',' :: print j ++ printElems rest := rfl

theorem printObj_cons (n : List Char) (j : Json) (rest : Members) :
    printObj (.cons n j rest) = printString n ++ ':' :: print j ++ printMembers rest ++ ['\x7d'] :=
  rfl

theorem printMembers_cons (n : List Char) (j : Json) (rest : Members) :
    printMembers (.cons n j rest) = ',' :: printString n ++ ':' :: print j ++ printMembers rest :=
  rfl

/-! ## What the parser makes of a value -/

/-- `json_attr_value_complete`: the attribute is set when the value completed with a result. -/
def setAttr (o : Tuple) (name : List Char) : Option Value → Tuple
  | some v => o.set name v
  | none => o

mutual
/-- A string, or the tuple of an object; a number, a boolean, `null` and an array complete
    with `0`. -/
def toValue : Json → Option Value
  | .str s => some (.string s)
  | .obj ms => some (.tuple (setMembers ms .nil))
  | .num .. | .bool _ | .null | .arr _ => none

def setMembers : Members → Tuple → Tuple
  | .nil, o => o
  | .cons n j rest, o => setMembers rest (setAttr o n (toValue j))
end

mutual
/-- Every attribute name in the value, also inside arrays, is nonempty. -/
def namesNonempty : Json → Bool
  | .arr es => elemsNamesNonempty es
  | .obj ms => membersNamesNonempty ms
  | .str _ | .num .. | .bool _ | .null => true

def elemsNamesNonempty : Elems → Bool
  | .nil => true
  | .cons j rest => namesNonempty j && elemsNamesNonempty rest

def membersNamesNonempty : Members → Bool
  | .nil => true
  | .cons n j rest => !n.isEmpty && namesNonempty j && membersNamesNonempty rest
end

/-! ## Transitions

One lemma for each step that the text of a value makes the parser take. -/

theorem digitChar_numeric (d : Fin 10) : charIsNumeric (.char (digitChar d)) = true := by
  revert d
  decide

theorem digitChar_not_whitespace (d : Fin 10) : charIsWhitespace (.char (digitChar d)) = false := by
  revert d
  decide

theorem digitChar_ne_dot (d : Fin 10) : digitChar d ≠ '.' := by
  revert d
  decide

section Feed

variable {S : List Frame} {is : List Character}

theorem feed_value_quote :
    parserFeed (.value :: S) (.char '"' :: is) = parserFeed (.string [] false :: .value :: S) is :=
  parserFeed_cons_silent is rfl

theorem feed_value_brace :
    parserFeed (.value :: S) (.char '\x7b' :: is) =
      parserFeed (.obj .nil .attrBegin :: .value :: S) is :=
  parserFeed_cons_silent is rfl

theorem feed_value_bracket :
    parserFeed (.value :: S) (.char '[' :: is) =
      parserFeed (.array .elemBegin :: .value :: S) is :=
  parserFeed_cons_silent is rfl

theorem feed_value_minus :
    parserFeed (.value :: S) (.char '-' :: is) = parserFeed (.number false false :: .value :: S) is :=
  parserFeed_cons_silent is rfl

theorem feed_value_digit (d : Fin 10) :
    parserFeed (.value :: S) (.char (digitChar d) :: is) =
      parserFeed (.number true false :: .value :: S) is :=
  parserFeed_cons_silent is (by
    simp [parseChar, jsonValueParse, jsonNumberParse, digitChar_numeric, digitChar_not_whitespace,
      digitChar_ne_dot])

theorem feed_number_digit {digitFound fractional : Bool} (d : Fin 10) :
    parserFeed (.number digitFound fractional :: S) (.char (digitChar d) :: is) =
      parserFeed (.number true fractional :: S) is :=
  parserFeed_cons_silent is (by simp [parseChar, jsonNumberParse, digitChar_numeric, digitChar_ne_dot])

theorem feed_number_dot :
    parserFeed (.number true false :: S) (.char '.' :: is) =
      parserFeed (.number false true :: S) is :=
  parserFeed_cons_silent is rfl

theorem feed_array_close {state : ArrayState} :
    parserFeed (.array state :: S) (.char ']' :: is) = thenFeed (complete none S) is :=
  parserFeed_cons is rfl

theorem feed_array_comma :
    parserFeed (.array .elemEnd :: S) (.char ',' :: is) =
      parserFeed (.array .elemBegin :: S) is :=
  parserFeed_cons_silent is rfl

/-- An element: the character goes to a value parser that the array parser starts. -/
theorem feed_array_elem {c : Char} (hc : c ≠ ']') :
    parserFeed (.array .elemBegin :: S) (.char c :: is) =
      parserFeed (.value :: .array .elemBegin :: S) (.char c :: is) :=
  parserFeed_cons_congr is (by simp [parseChar, jsonArrayParse, hc])

theorem feed_obj_quote {o : Tuple} :
    parserFeed (.obj o .attrBegin :: S) (.char '"' :: is) =
      parserFeed (.attr [] .name :: .obj o .attrBegin :: S) is :=
  parserFeed_cons_silent is rfl

theorem feed_obj_close {o : Tuple} {state : ObjState} :
    parserFeed (.obj o state :: S) (.char '\x7d' :: is) =
      thenFeed (complete (some (.tuple o)) S) is := by
  cases state
  · exact parserFeed_cons is rfl
  · exact parserFeed_cons is rfl

theorem feed_obj_comma {o : Tuple} :
    parserFeed (.obj o .attrEnd :: S) (.char ',' :: is) =
      parserFeed (.obj o .attrBegin :: S) is :=
  parserFeed_cons_silent is rfl

/-- The first character of a name goes to a string parser that the attribute parser starts. -/
theorem feed_attr_name {name : List Char} (c : Char) :
    parserFeed (.attr name .name :: S) (.char c :: is) =
      parserFeed (.string [] false :: .attr name .name :: S) (.char c :: is) :=
  parserFeed_cons_congr is rfl

theorem feed_attr_colon {name : List Char} :
    parserFeed (.attr name .value :: S) (.char ':' :: is) =
      parserFeed (.value :: .attr name .value :: S) is :=
  parserFeed_cons_silent is rfl

theorem feed_json_brace :
    parserFeed [.json] (.char '\x7b' :: is) = parserFeed [.obj .nil .attrBegin, .json] is :=
  parserFeed_cons_silent is rfl

/-! ## Strings -/

theorem feed_string_char {acc : List Char} {c : Char} (hq : c ≠ '"') (hb : c ≠ '\\') :
    parserFeed (.string acc false :: S) (.char c :: is) =
      parserFeed (.string (acc ++ [c]) false :: S) is :=
  parserFeed_cons_silent is (by simp [parseChar, jsonStringParse, hq, hb])

theorem feed_string_backslash {acc : List Char} :
    parserFeed (.string acc false :: S) (.char '\\' :: is) =
      parserFeed (.string acc true :: S) is :=
  parserFeed_cons_silent is rfl

theorem feed_string_escape {acc : List Char} {c : Char} (hc : c = '"' ∨ c = '\\') :
    parserFeed (.string acc true :: S) (.char c :: is) =
      parserFeed (.string (acc ++ [c]) false :: S) is := by
  rcases hc with rfl | rfl
  · exact parserFeed_cons_silent is rfl
  · exact parserFeed_cons_silent is rfl

theorem feed_string_close {acc : List Char} :
    parserFeed (.string acc false :: S) (.char '"' :: is) =
      thenFeed (complete (some (.string acc)) S) is :=
  parserFeed_cons is rfl

/-- The escaped characters of `s`, fed to a string parser, are appended to its string. -/
theorem feed_escaped (s acc : List Char) :
    parserFeed (.string acc false :: S) ((s.flatMap escape).map .char ++ is) =
      parserFeed (.string (acc ++ s) false :: S) is := by
  induction s generalizing acc with
  | nil => simp
  | cons c s ih =>
    rw [List.flatMap_cons, List.map_append, List.append_assoc]
    by_cases hc : c = '"' ∨ c = '\\'
    · -- a backslash, then the character itself
      rw [escape, if_pos hc]
      simp only [List.map_cons, List.map_nil, List.cons_append, List.nil_append]
      rw [feed_string_backslash, feed_string_escape hc, ih]
      simp
    · rw [escape, if_neg hc]
      obtain ⟨hq, hb⟩ := not_or.1 hc
      simp only [List.map_cons, List.map_nil, List.cons_append, List.nil_append]
      rw [feed_string_char hq hb, ih]
      simp

theorem flatMap_escape_ne_nil {s : List Char} (hs : s ≠ []) : s.flatMap escape ≠ [] := by
  obtain ⟨c, s', rfl⟩ := List.exists_cons_of_ne_nil hs
  rw [List.flatMap_cons, escape]
  split <;> simp

theorem complete_name {name n : List Char} (hn : n ≠ []) :
    complete (some (.string n)) (.attr name .name :: S) = (.attr n .value :: S, []) := by
  simp [complete, hn]

/-- A nonempty name, quoted, takes an object parser to an attribute parser waiting for `:`. -/
theorem feed_name {o : Tuple} {n : List Char} (hn : n ≠ []) :
    parserFeed (.obj o .attrBegin :: S) ((printString n).map .char ++ is) =
      parserFeed (.attr n .value :: .obj o .attrBegin :: S) is := by
  obtain ⟨c, cs, hcs⟩ := List.exists_cons_of_ne_nil (flatMap_escape_ne_nil hn)
  simp only [printString, List.map_cons, List.map_append, List.cons_append, List.append_assoc,
    List.map_nil, List.nil_append]
  rw [feed_obj_quote]
  -- the first escaped character reaches the string parser that the attribute parser starts
  have hfirst := @feed_attr_name (.obj o .attrBegin :: S)
    ((cs.map .char) ++ (.char '"' :: is)) [] c
  rw [hcs, List.map_cons, List.cons_append, hfirst, ← List.cons_append, ← List.map_cons, ← hcs,
    feed_escaped, List.nil_append, feed_string_close, complete_name hn, thenFeed_silent]

/-! ## Values

A value parser is started by an attribute parser after its `:` or by an array parser; either
takes the completion silently. The text of a value ends where the next character is not numeric,
which is where a number parser completes. -/

/-- The parsers that start a value parser. -/
inductive ValueParent : List Frame → Prop
  | attr (name : List Char) (o : Tuple) (state : ObjState) (rest : List Frame) :
      ValueParent (.attr name .value :: .obj o state :: rest)
  | array (rest : List Frame) : ValueParent (.array .elemBegin :: rest)

theorem ValueParent.complete_silent {ctx : List Frame} (h : ValueParent ctx)
    (result : Option Value) : (complete result ctx).2 = [] := by
  cases h <;> rfl

/-- A value parser passes its completion on, to a parent that reports nothing. -/
theorem thenFeed_complete_value {ctx : List Frame} (h : ValueParent ctx) (result : Option Value) :
    thenFeed (complete result (.value :: ctx)) is = parserFeed (complete result ctx).1 is := by
  have hc : complete result (.value :: ctx) = ((complete result ctx).1, []) :=
    Prod.ext rfl (h.complete_silent result)
  rw [hc, thenFeed_silent]

/-- Feeding the text of `j` to a value parser, and then a character that is not numeric, is the
    completion of the parser below with what the parser makes of `j`, and then that character. -/
def ValueFeeds (j : Json) : Prop :=
  ∀ ctx, ValueParent ctx → ∀ (t : Character) (is : List Character), charIsNumeric t = false →
    parserFeed (.value :: ctx) ((print j).map .char ++ t :: is) =
      parserFeed (complete (toValue j) ctx).1 (t :: is)

theorem valueFeeds_str (s : List Char) : ValueFeeds (.str s) := by
  intro ctx hctx t is _
  simp only [print_str, printString, List.map_cons, List.map_append, List.cons_append,
    List.append_assoc, List.map_nil, List.nil_append]
  rw [feed_value_quote, feed_escaped, List.nil_append, feed_string_close,
    thenFeed_complete_value hctx]
  rfl

theorem feed_digits {fractional : Bool} (ds : List (Fin 10)) :
    parserFeed (.number true fractional :: S) ((ds.map digitChar).map .char ++ is) =
      parserFeed (.number true fractional :: S) is := by
  induction ds with
  | nil => rfl
  | cons d ds ih => rw [List.map_cons, List.map_cons, List.cons_append, feed_number_digit, ih]

/-- After the sign and the digits before the point, the number parser holds a digit. -/
theorem feed_integer (neg : Bool) (d : Fin 10) (ds : List (Fin 10)) :
    parserFeed (.value :: S)
      ((if neg then ['-'] else []).map .char ++ (((d :: ds).map digitChar).map .char ++ is)) =
      parserFeed (.number true false :: .value :: S) is := by
  cases neg with
  | true =>
    simp only [↓reduceIte, List.map_cons, List.map_nil, List.cons_append, List.nil_append]
    rw [feed_value_minus, feed_number_digit, feed_digits]
  | false =>
    simp only [Bool.false_eq_true, ↓reduceIte, List.map_nil, List.nil_append, List.map_cons,
      List.cons_append]
    rw [feed_value_digit, feed_digits]

theorem feed_fraction (frac : Option (Fin 10 × List (Fin 10))) :
    parserFeed (.number true false :: S) ((printFraction frac).map .char ++ is) =
      parserFeed (.number true frac.isSome :: S) is := by
  cases frac with
  | none => rfl
  | some p =>
    obtain ⟨f, fs⟩ := p
    simp only [printFraction, List.map_cons, List.cons_append, Option.isSome_some]
    rw [feed_number_dot, feed_number_digit, feed_digits]

theorem valueFeeds_num (neg : Bool) (d : Fin 10) (ds : List (Fin 10))
    (frac : Option (Fin 10 × List (Fin 10))) : ValueFeeds (.num neg d ds frac) := by
  intro ctx hctx t is ht
  simp only [print_num, printNumber, List.map_append, List.append_assoc]
  rw [feed_integer, feed_fraction,
    @parserFeed_number_end _ (.value :: ctx) _ is ht (hctx.complete_silent none)]
  rfl

/-- The letters of a literal are silent steps of the literal parser, and the last completes the
    value parser. -/
theorem feed_print_true :
    parserFeed (.value :: S) ((print (.bool true)).map .char ++ is) =
      thenFeed (complete none (.value :: S)) is :=
  calc parserFeed (.value :: S) (.char 't' :: .char 'r' :: .char 'u' :: .char 'e' :: is)
    _ = parserFeed (.boolean true 1 :: .value :: S) (.char 'r' :: .char 'u' :: .char 'e' :: is) :=
      parserFeed_cons_silent _ rfl
    _ = parserFeed (.boolean true 2 :: .value :: S) (.char 'u' :: .char 'e' :: is) :=
      parserFeed_cons_silent _ rfl
    _ = parserFeed (.boolean true 3 :: .value :: S) (.char 'e' :: is) :=
      parserFeed_cons_silent _ rfl
    _ = thenFeed (complete none (.value :: S)) is := parserFeed_cons _ rfl

theorem feed_print_false :
    parserFeed (.value :: S) ((print (.bool false)).map .char ++ is) =
      thenFeed (complete none (.value :: S)) is :=
  calc parserFeed (.value :: S)
        (.char 'f' :: .char 'a' :: .char 'l' :: .char 's' :: .char 'e' :: is)
    _ = parserFeed (.boolean false 1 :: .value :: S)
        (.char 'a' :: .char 'l' :: .char 's' :: .char 'e' :: is) := parserFeed_cons_silent _ rfl
    _ = parserFeed (.boolean false 2 :: .value :: S) (.char 'l' :: .char 's' :: .char 'e' :: is) :=
      parserFeed_cons_silent _ rfl
    _ = parserFeed (.boolean false 3 :: .value :: S) (.char 's' :: .char 'e' :: is) :=
      parserFeed_cons_silent _ rfl
    _ = parserFeed (.boolean false 4 :: .value :: S) (.char 'e' :: is) :=
      parserFeed_cons_silent _ rfl
    _ = thenFeed (complete none (.value :: S)) is := parserFeed_cons _ rfl

theorem feed_print_null :
    parserFeed (.value :: S) ((print .null).map .char ++ is) =
      thenFeed (complete none (.value :: S)) is :=
  calc parserFeed (.value :: S) (.char 'n' :: .char 'u' :: .char 'l' :: .char 'l' :: is)
    _ = parserFeed (.null 1 :: .value :: S) (.char 'u' :: .char 'l' :: .char 'l' :: is) :=
      parserFeed_cons_silent _ rfl
    _ = parserFeed (.null 2 :: .value :: S) (.char 'l' :: .char 'l' :: is) :=
      parserFeed_cons_silent _ rfl
    _ = parserFeed (.null 3 :: .value :: S) (.char 'l' :: is) := parserFeed_cons_silent _ rfl
    _ = thenFeed (complete none (.value :: S)) is := parserFeed_cons _ rfl

theorem valueFeeds_bool (b : Bool) : ValueFeeds (.bool b) := by
  intro ctx hctx t is _
  cases b
  · rw [feed_print_false, thenFeed_complete_value hctx]
    rfl
  · rw [feed_print_true, thenFeed_complete_value hctx]
    rfl

theorem valueFeeds_null : ValueFeeds .null := by
  intro ctx hctx t is _
  rw [feed_print_null, thenFeed_complete_value hctx]
  rfl

/-! ## Arrays -/

/-- The elements after the first, fed to an array parser after an element, up to `]`. -/
def ElemsFeed (es : Elems) : Prop :=
  ∀ S more, parserFeed (.array .elemEnd :: S) ((printElems es).map .char ++ .char ']' :: more) =
    parserFeed (.array .elemEnd :: S) (.char ']' :: more)

/-- The text of an array after its `[`, fed to a fresh array parser, completes the parser below
    with `0`. -/
def ArrFeeds (es : Elems) : Prop :=
  ∀ S more, parserFeed (.array .elemBegin :: S) ((printArr es).map .char ++ more) =
    thenFeed (complete none S) more

theorem print_head (j : Json) : ∃ c cs, print j = c :: cs ∧ c ≠ ']' := by
  cases j with
  | str s => exact ⟨_, _, rfl, by decide⟩
  | num neg d ds frac =>
    cases neg with
    | true => exact ⟨_, _, rfl, by decide⟩
    | false => exact ⟨digitChar d, _, rfl, by revert d; decide⟩
  | bool b => cases b <;> exact ⟨_, _, rfl, by decide⟩
  | null => exact ⟨_, _, rfl, by decide⟩
  | arr es => exact ⟨_, _, rfl, by decide⟩
  | obj ms => exact ⟨_, _, rfl, by decide⟩

theorem feed_elem {j : Json} (hj : ValueFeeds j) {t : Character} (ht : charIsNumeric t = false) :
    parserFeed (.array .elemBegin :: S) ((print j).map .char ++ t :: is) =
      parserFeed (.array .elemEnd :: S) (t :: is) := by
  obtain ⟨c, cs, hcs, hc⟩ := print_head j
  rw [hcs, List.map_cons, List.cons_append, feed_array_elem hc, ← List.cons_append,
    ← List.map_cons, ← hcs, hj _ (.array S) t is ht]
  rfl

theorem printElems_close (es : Elems) (more : List Character) :
    ∃ t is, (printElems es).map .char ++ .char ']' :: more = t :: is ∧ charIsNumeric t = false := by
  cases es with
  | nil => exact ⟨_, _, rfl, by decide⟩
  | cons j rest => exact ⟨_, _, rfl, by decide⟩

theorem elemsFeed_nil : ElemsFeed .nil := fun _ _ => rfl

theorem elemsFeed_cons {j : Json} {rest : Elems} (hj : ValueFeeds j) (hrest : ElemsFeed rest) :
    ElemsFeed (.cons j rest) := by
  intro S more
  obtain ⟨t, is, heq, ht⟩ := printElems_close rest more
  simp only [printElems_cons, List.map_cons, List.map_append, List.cons_append, List.append_assoc]
  rw [feed_array_comma, heq, feed_elem hj ht, ← heq, hrest]

theorem arrFeeds_nil : ArrFeeds .nil := fun _ _ => feed_array_close

theorem arrFeeds_cons {j : Json} {rest : Elems} (hj : ValueFeeds j) (hrest : ElemsFeed rest) :
    ArrFeeds (.cons j rest) := by
  intro S more
  obtain ⟨t, is, heq, ht⟩ := printElems_close rest more
  simp only [printArr_cons, List.map_append, List.append_assoc, List.map_cons, List.map_nil,
    List.cons_append, List.nil_append]
  rw [heq, feed_elem hj ht, ← heq, hrest, feed_array_close]

theorem valueFeeds_arr {es : Elems} (h : ArrFeeds es) : ValueFeeds (.arr es) := by
  intro ctx hctx t is _
  rw [print_arr, List.map_cons, List.cons_append, feed_value_bracket, h, thenFeed_complete_value hctx]
  rfl

/-! ## Objects -/

/-- The members after the first, fed to an object parser after a member, up to its closing
    brace: each is set into the tuple. -/
def MembersFeed (ms : Members) : Prop :=
  ∀ o S more,
    parserFeed (.obj o .attrEnd :: S) ((printMembers ms).map .char ++ .char '\x7d' :: more) =
      parserFeed (.obj (setMembers ms o) .attrEnd :: S) (.char '\x7d' :: more)

/-- The text of an object after its opening brace, fed to a fresh object parser, completes the
    parser below with the tuple of the members. -/
def ObjFeeds (ms : Members) : Prop :=
  ∀ S more, parserFeed (.obj .nil .attrBegin :: S) ((printObj ms).map .char ++ more) =
    thenFeed (complete (some (.tuple (setMembers ms .nil))) S) more

theorem complete_attr_value {name : List Char} {o : Tuple} {state : ObjState}
    (result : Option Value) :
    complete result (.attr name .value :: .obj o state :: S) =
      (.obj (setAttr o name result) .attrEnd :: S, []) := by
  cases result <;> rfl

/-- One member: its value is set into the tuple, and the object parser moves to its
    attribute-end state. -/
theorem feed_member {o : Tuple} {n : List Char} {j : Json} (hn : n ≠ []) (hj : ValueFeeds j)
    {t : Character} (ht : charIsNumeric t = false) :
    parserFeed (.obj o .attrBegin :: S)
      ((printString n).map .char ++ .char ':' :: ((print j).map .char ++ t :: is)) =
      parserFeed (.obj (setAttr o n (toValue j)) .attrEnd :: S) (t :: is) := by
  rw [feed_name hn, feed_attr_colon, hj _ (.attr n o .attrBegin S) t is ht, complete_attr_value]

theorem printMembers_close (ms : Members) (more : List Character) :
    ∃ t is, (printMembers ms).map .char ++ .char '\x7d' :: more = t :: is ∧
      charIsNumeric t = false := by
  cases ms with
  | nil => exact ⟨_, _, rfl, by decide⟩
  | cons n j rest => exact ⟨_, _, rfl, by decide⟩

theorem membersFeed_nil : MembersFeed .nil := fun _ _ _ => rfl

theorem membersFeed_cons {n : List Char} {j : Json} {rest : Members} (hn : n ≠ [])
    (hj : ValueFeeds j) (hrest : MembersFeed rest) : MembersFeed (.cons n j rest) := by
  intro o S more
  obtain ⟨t, is, heq, ht⟩ := printMembers_close rest more
  simp only [printMembers_cons, List.map_cons, List.map_append, List.cons_append, List.append_assoc]
  rw [feed_obj_comma, heq, feed_member hn hj ht, ← heq, hrest]
  rfl

theorem objFeeds_nil : ObjFeeds .nil := fun _ _ => feed_obj_close

theorem objFeeds_cons {n : List Char} {j : Json} {rest : Members} (hn : n ≠ [])
    (hj : ValueFeeds j) (hrest : MembersFeed rest) : ObjFeeds (.cons n j rest) := by
  intro S more
  obtain ⟨t, is, heq, ht⟩ := printMembers_close rest more
  simp only [printObj_cons, List.map_append, List.append_assoc, List.map_cons, List.map_nil,
    List.cons_append, List.nil_append]
  rw [heq, feed_member hn hj ht, ← heq, hrest, feed_obj_close]
  rfl

theorem valueFeeds_obj {ms : Members} (h : ObjFeeds ms) : ValueFeeds (.obj ms) := by
  intro ctx hctx t is _
  rw [print_obj, List.map_cons, List.cons_append, feed_value_brace, h, thenFeed_complete_value hctx]
  rfl

end Feed

/-! ## Every value

The lemmas above, for each kind of value, array and object, assembled by mutual induction over
the value. -/

mutual
theorem valueFeeds : ∀ j : Json, namesNonempty j = true → ValueFeeds j
  | .str s, _ => valueFeeds_str s
  | .num neg d ds frac, _ => valueFeeds_num neg d ds frac
  | .bool b, _ => valueFeeds_bool b
  | .null, _ => valueFeeds_null
  | .arr es, h => valueFeeds_arr (arrFeeds es h)
  | .obj ms, h => valueFeeds_obj (objFeeds ms h)

theorem arrFeeds : ∀ es : Elems, elemsNamesNonempty es = true → ArrFeeds es
  | .nil, _ => arrFeeds_nil
  | .cons j rest, h => by
    simp only [elemsNamesNonempty, Bool.and_eq_true] at h
    exact arrFeeds_cons (valueFeeds j h.1) (elemsFeed rest h.2)

theorem elemsFeed : ∀ es : Elems, elemsNamesNonempty es = true → ElemsFeed es
  | .nil, _ => elemsFeed_nil
  | .cons j rest, h => by
    simp only [elemsNamesNonempty, Bool.and_eq_true] at h
    exact elemsFeed_cons (valueFeeds j h.1) (elemsFeed rest h.2)

theorem objFeeds : ∀ ms : Members, membersNamesNonempty ms = true → ObjFeeds ms
  | .nil, _ => objFeeds_nil
  | .cons n j rest, h => by
    simp only [membersNamesNonempty, Bool.and_eq_true, Bool.not_eq_true',
      List.isEmpty_eq_false_iff] at h
    exact objFeeds_cons h.1.1 (valueFeeds j h.1.2) (membersFeed rest h.2)

theorem membersFeed : ∀ ms : Members, membersNamesNonempty ms = true → MembersFeed ms
  | .nil, _ => membersFeed_nil
  | .cons n j rest, h => by
    simp only [membersNamesNonempty, Bool.and_eq_true, Bool.not_eq_true',
      List.isEmpty_eq_false_iff] at h
    exact membersFeed_cons h.1.1 (valueFeeds j h.1.2) (membersFeed rest h.2)
end

/-- The parser computes what an object text means: fed the compact text of an object whose
    attribute names are nonempty, and then `CHARACTER_INVALID`, it reports the object's tuple
    once and nothing else, and is back at `json_parse`. -/
theorem parseString_print (ms : Members) (h : membersNamesNonempty ms = true) :
    parseString (String.ofList (print (.obj ms))) =
      some ([.json], [.finish (some (.tuple (setMembers ms .nil)))]) := by
  rw [parseString, String.toList_ofList, jsonParser, print_obj, List.map_cons, List.cons_append,
    feed_json_brace, objFeeds ms h]
  -- `json_complete` reports the tuple, and the end of input is skipped
  simp [complete, thenFeed, parserFeed, parseChar, jsonParse]

/-- An object with a nested array, a nested object, a negative fraction and `null`. -/
theorem parseString_print_nested :
    membersNamesNonempty (.cons ['a'] (.arr (.cons (.str ['x']) (.cons (.obj (.cons ['b'] .null .nil))
      .nil))) (.cons ['c'] (.num true 1 [] (some (5, []))) .nil)) = true ∧
    parseString (String.ofList (print (.obj (.cons ['a'] (.arr (.cons (.str ['x'])
      (.cons (.obj (.cons ['b'] .null .nil)) .nil))) (.cons ['c'] (.num true 1 [] (some (5, []))) .nil))))) =
      some ([.json], [.finish (some (.tuple (setMembers (.cons ['a'] (.arr (.cons (.str ['x'])
        (.cons (.obj (.cons ['b'] .null .nil)) .nil))) (.cons ['c'] (.num true 1 [] (some (5, []))) .nil))
        .nil)))]) :=
  ⟨rfl, parseString_print _ rfl⟩

/- A later member overrides an earlier one of the same name; a number, booleans, `null` and an
   array are dropped. -/
example : parseString "\x7b\"a\":\"x\",\"a\":1.5,\"b\":[true,null,-2],\"a\":\x7b\x7d\x7d" =
    some ([.json], [.finish (some (.tuple (.cons ['a'] (.tuple .nil) .nil)))]) := by
  rfl

end Nanos.JsonText
