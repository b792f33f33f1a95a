/-!
# How types are read

The grammar of the types that schemas are given: suffixes bind tighter than `&`, which binds
tighter than `|`, and brackets of every kind nest. `Reads` is the grammar as a relation between
lexemes and trees, and `Reads.unique` says that it is unambiguous: a machine that takes one lexeme
after the other follows every derivation.
-/

namespace OpenApiModels.TypeScript

/-! ### Lexemes and trees -/

/-- A piece of the text of a type: a name, a number or a string literal, or one of the marks. -/
inductive Lexeme where
  | atom (text : List Char)
  | mark (c : Char)
deriving DecidableEq, Repr

/-- The operators between types. -/
inductive Operator where
  | union
  | intersection
deriving DecidableEq, Repr

def Operator.sign : Operator → Char
  | union => '|'
  | intersection => '&'

/-- What the text of a type says. -/
inductive TypeTree where
  | atom (text : List Char)
  | apply (name : List Char) (args : List TypeTree)
  | array (item : TypeTree)
  /-- The properties with their keys; the flag marks the required ones. -/
  | object (fields : List (List Char × Bool × TypeTree))
  | combined (op : Operator) (operands : List TypeTree)

namespace TypeTree

/-- The operands of a type with the operator, or the type as the only one. -/
def operands (op : Operator) (t : TypeTree) : List TypeTree :=
  match t with
  | .combined op' ts => if op' = op then ts else [t]
  | _ => [t]

/-- Types put together by an operator. It does not matter how they are grouped, so types that have
the operator themselves are spread out. -/
def combine (op : Operator) : List TypeTree → TypeTree
  | [t] => t
  | ts => .combined op (ts.flatMap (operands op))

@[simp] theorem combine_singleton (op : Operator) (t : TypeTree) : combine op [t] = t := rfl

theorem combine_cons_cons (op : Operator) (t u : TypeTree) (ts : List TypeTree) :
    combine op (t :: u :: ts) = .combined op ((t :: u :: ts).flatMap (operands op)) := rfl

theorem combine_of_two_le {op : Operator} {ts : List TypeTree} (h : 2 ≤ ts.length) :
    combine op ts = .combined op (ts.flatMap (operands op)) := by
  match ts with
  | [] | [_] => simp at h
  | _ :: _ :: _ => rfl

theorem operands_combine (op : Operator) (ts : List TypeTree) :
    operands op (combine op ts) = ts.flatMap (operands op) := by
  match ts with
  | [] => simp [combine, operands]
  | [t] => simp
  | t :: u :: ts => rw [combine_cons_cons, operands, if_pos rfl]

/-- Operands can be put together in two steps. -/
theorem combine_append (op : Operator) {ts us : List TypeTree} (hts : ts ≠ []) (hus : us ≠ []) :
    combine op (ts ++ us) = combine op [combine op ts, combine op us] := by
  have long : 2 ≤ (ts ++ us).length := by
    have := List.length_pos_iff.2 hts
    have := List.length_pos_iff.2 hus
    simp only [List.length_append]
    omega
  rw [combine_of_two_le long, combine_cons_cons, List.flatMap_append]
  simp [operands_combine]

end TypeTree

open TypeTree

/-! ### The grammar -/

/-- How tightly the parts of a text have to hold together. -/
inductive Level where
  /-- No operator stands between brackets. -/
  | operand
  /-- The operator may stand there, and those that bind tighter. -/
  | operator (op : Operator)
deriving DecidableEq, Repr

/-- What stands between the signs of an operator. -/
def Operator.tighter : Operator → Level
  | union => .operator .intersection
  | intersection => .operand

/-- Lexemes with a mark between them. -/
def joined (sign : Char) (parts : List (List Lexeme)) : List Lexeme :=
  List.intercalate [.mark sign] parts

theorem joined_cons_cons (sign : Char) (ls ls' : List Lexeme) (parts : List (List Lexeme)) :
    joined sign (ls :: ls' :: parts) = ls ++ .mark sign :: joined sign (ls' :: parts) := by
  simp [joined, List.intercalate_cons_cons]

@[simp] theorem joined_singleton (sign : Char) (ls : List Lexeme) : joined sign [ls] = ls := by
  simp [joined]

theorem joined_cons (sign : Char) (ls : List Lexeme) {parts : List (List Lexeme)}
    (h : parts ≠ []) : joined sign (ls :: parts) = ls ++ .mark sign :: joined sign parts := by
  obtain ⟨ls', parts, rfl⟩ := List.exists_cons_of_ne_nil h
  exact joined_cons_cons sign ls ls' parts

theorem joined_append (sign : Char) {as bs : List (List Lexeme)} (has : as ≠ []) (hbs : bs ≠ []) :
    joined sign (as ++ bs) = joined sign as ++ .mark sign :: joined sign bs := by
  induction as with
  | nil => exact absurd rfl has
  | cons a as ih =>
    rw [List.cons_append, joined_cons sign a (List.append_ne_nil_of_right_ne_nil as hbs)]
    cases as with
    | nil => rw [List.nil_append, joined_singleton]
    | cons a' as =>
      rw [ih (List.cons_ne_nil a' as), joined_cons_cons, List.append_assoc, List.cons_append]

/-- What stands between two lists of parts can go on with the last part of the one and end in the
first part of the other. -/
theorem joined_bridge (sign : Char) (as bs : List (List Lexeme)) (a b : List Lexeme) (l : Lexeme) :
    joined sign (as ++ [a]) ++ l :: joined sign (b :: bs) =
      joined sign (as ++ (a ++ l :: b) :: bs) := by
  induction as with
  | nil =>
    rw [List.nil_append, List.nil_append, joined_singleton]
    cases bs with
    | nil => rw [joined_singleton, joined_singleton]
    | cons b' bs => rw [joined_cons_cons, joined_cons_cons, List.append_assoc, List.cons_append]
  | cons a' as ih =>
    have left : as ++ [a] ≠ [] := by simp
    have right : as ++ (a ++ l :: b) :: bs ≠ [] := by simp
    rw [List.cons_append, List.cons_append, joined_cons sign a' left, joined_cons sign a' right,
      ← ih, List.append_assoc, List.cons_append]

/-- A property: its key, whether it is required, and how its type is written and read. -/
structure FieldReading where
  key : List Char
  required : Bool
  lexemes : List Lexeme
  tree : TypeTree

namespace FieldReading

def written (f : FieldReading) : List Lexeme :=
  .atom f.key :: (if f.required then [] else [.mark '?']) ++ .mark ':' :: f.lexemes

def read (f : FieldReading) : List Char × Bool × TypeTree :=
  (f.key, f.required, f.tree)

end FieldReading

/-- The lexemes are those of the type, and no sign that binds looser than the level stands outside
of brackets. -/
inductive Reads : Level → List Lexeme → TypeTree → Prop where
  | atom (text : List Char) : Reads .operand [.atom text] (.atom text)
  | parentheses {ls : List Lexeme} {t : TypeTree} (inside : Reads (.operator .union) ls t) :
    Reads .operand (.mark '(' :: ls ++ [.mark ')']) t
  | array {ls : List Lexeme} {t : TypeTree} (item : Reads .operand ls t) :
    Reads .operand (ls ++ [.mark '[', .mark ']']) (.array t)
  | apply (name : List Char) {args : List (List Lexeme × TypeTree)} (nonempty : args ≠ [])
    (each : ∀ a ∈ args, Reads (.operator .union) a.1 a.2) :
    Reads .operand (.atom name :: .mark '<' :: joined ',' (args.map (·.1)) ++ [.mark '>'])
      (.apply name (args.map (·.2)))
  | object {fields : List FieldReading}
    (each : ∀ f ∈ fields, Reads (.operator .union) f.lexemes f.tree) :
    Reads .operand (.mark '\x7b' :: joined ';' (fields.map (·.written)) ++ [.mark '\x7d'])
      (.object (fields.map (·.read)))
  | operator (op : Operator) {parts : List (List Lexeme × TypeTree)} (nonempty : parts ≠ [])
    (each : ∀ p ∈ parts, Reads op.tighter p.1 p.2) :
    Reads (.operator op) (joined op.sign (parts.map (·.1))) (combine op (parts.map (·.2)))

namespace Reads

variable {ls ls' : List Lexeme} {t u : TypeTree} {op : Operator}

theorem single (h : Reads op.tighter ls t) : Reads (.operator op) ls t := by
  have one := operator op (List.cons_ne_nil (ls, t) []) (by simpa using h)
  simpa using one

theorem loosen (h : Reads .operand ls t) (op : Operator) : Reads (.operator op) ls t := by
  have inner : Reads (.operator .intersection) ls t := single h
  cases op with
  | intersection => exact inner
  | union => exact single inner

theorem to_union {level : Level} (h : Reads level ls t) : Reads (.operator .union) ls t := by
  match level with
  | .operand => exact h.loosen .union
  | .operator .intersection => exact single h
  | .operator .union => exact h

/-- Two types with an operator between them. -/
theorem combine (h : Reads (.operator op) ls t) (h' : Reads (.operator op) ls' u) :
    Reads (.operator op) (ls ++ .mark op.sign :: ls') (.combine op [t, u]) := by
  cases h with
  | @operator _ parts nonempty each =>
    cases h' with
    | @operator _ parts' nonempty' each' =>
      have both := operator op (List.append_ne_nil_of_left_ne_nil nonempty parts')
        (List.forall_mem_append.2 ⟨each, each'⟩)
      rwa [List.map_append, List.map_append, joined_append _ (by simpa using nonempty)
        (by simpa using nonempty'), combine_append op (by simpa using nonempty)
        (by simpa using nonempty')] at both

end Reads

/-! ### Alternatives -/

/-- The lexemes are those of the alternatives, one behind the other with signs between them. -/
def Alternates (ls : List Lexeme) (ts : List TypeTree) : Prop :=
  ∃ parts : List (List Lexeme × TypeTree), parts ≠ [] ∧
    (∀ p ∈ parts, Reads (.operator .intersection) p.1 p.2) ∧
    ls = joined '|' (parts.map (·.1)) ∧ ts = parts.map (·.2)

theorem Reads.exists_alternates {ls : List Lexeme} {t : TypeTree}
    (h : Reads (.operator .union) ls t) : ∃ ts, Alternates ls ts ∧ t = .combine .union ts := by
  cases h with
  | @operator _ parts nonempty each => exact ⟨_, ⟨parts, nonempty, each, rfl, rfl⟩, rfl⟩

/-- Only parentheses make an operand of a type that has an operator. -/
theorem Reads.head?_of_combined {ls : List Lexeme} {op : Operator} {ts : List TypeTree}
    (h : Reads .operand ls (.combined op ts)) : ls.head? = some (.mark '(') := by
  generalize combined : TypeTree.combined op ts = t at h
  cases h with
  | parentheses => rfl
  | _ => cases combined

/-- A union is no intersection of several types. -/
theorem Reads.operand_of_union {ls : List Lexeme} {ts : List TypeTree}
    (h : Reads (.operator .intersection) ls (.combined .union ts)) :
    Reads .operand ls (.combined .union ts) := by
  generalize union : TypeTree.combined .union ts = t at h
  cases h with
  | @operator _ parts nonempty each =>
    match parts with
    | [] => exact absurd rfl nonempty
    | [p] =>
      have operand : Reads .operand p.1 p.2 := each p List.mem_cons_self
      simpa using operand
    | _ :: _ :: _ => cases union

namespace Alternates

variable {ls ls' : List Lexeme} {ts us : List TypeTree}

theorem reads (h : Alternates ls ts) : Reads (.operator .union) ls (.combine .union ts) := by
  obtain ⟨parts, nonempty, each, rfl, rfl⟩ := h
  exact .operator .union nonempty each

/-- The sign of an intersection takes the last of the alternatives before it and the first of those
behind it. -/
theorem meet (h : Alternates ls ts) (h' : Alternates ls' us) :
    ∃ vs, Alternates (ls ++ .mark '&' :: ls') vs ∧
      ts.length ≤ vs.length ∧ us.length ≤ vs.length := by
  obtain ⟨parts, nonempty, each, rfl, rfl⟩ := h
  obtain ⟨parts', nonempty', each', rfl, rfl⟩ := h'
  obtain ⟨before, last, isParts⟩ := List.eq_nil_or_concat parts |>.resolve_left nonempty
  rw [List.concat_eq_append] at isParts
  subst isParts
  obtain ⟨first, behind, rfl⟩ := List.exists_cons_of_ne_nil nonempty'
  obtain ⟨eachBefore, here⟩ := List.forall_mem_append.1 each
  obtain ⟨there, eachBehind⟩ := List.forall_mem_cons.1 each'
  have both := (here last List.mem_cons_self).combine there
  let middle := (last.1 ++ .mark '&' :: first.1, combine .intersection [last.2, first.2])
  refine ⟨_, ⟨before ++ middle :: behind, by simp, ?_, ?_, rfl⟩, ?_, ?_⟩
  · exact List.forall_mem_append.2 ⟨eachBefore, List.forall_mem_cons.2 ⟨both, eachBehind⟩⟩
  · simp only [List.map_append, List.map_cons, List.map_nil]
    exact joined_bridge _ _ _ _ _ _
  · simp
  · simp only [List.length_map, List.length_append, List.length_cons]
    omega

end Alternates

/-! ### The machine -/

/-- A type of which a part has been read: the alternatives that are complete, what stands in the
last one so far, and the operand behind the last sign. -/
structure Partial where
  alternatives : List TypeTree := []
  factors : List TypeTree := []
  current : Option TypeTree := none

namespace Partial

def set (p : Partial) (t : TypeTree) : Partial :=
  { p with current := some t }

/-- The type if it ends here. -/
def whole? (p : Partial) : Option TypeTree :=
  p.current.map fun t =>
    .combine .union (p.alternatives ++ [.combine .intersection (p.factors ++ [t])])

end Partial

/-- A bracket that is open around a type, with what was read before it. -/
inductive Enclosure where
  | parentheses (outer : Partial)
  | arguments (name : List Char) (args : List TypeTree) (outer : Partial)
  | field (fields : List (List Char × Bool × TypeTree)) (key : List Char) (required : Bool)
    (outer : Partial)

/-- What is read inside of the innermost bracket. -/
inductive Stage where
  | type (p : Partial)
  /-- The bracket of an array has been opened. -/
  | bracket (p : Partial)
  | key (fields : List (List Char × Bool × TypeTree)) (outer : Partial)
  | colon (fields : List (List Char × Bool × TypeTree)) (key : List Char) (required : Bool)
    (outer : Partial)

abbrev Machine := Stage × List Enclosure

namespace Machine

/-- What a mark does behind a type. -/
def behind (p : Partial) (t : TypeTree) : Char → List Enclosure → Option Machine
  | '[', es => some (.bracket p, es)
  | '<', es =>
    match t with
    | .atom name => some (.type {}, .arguments name [] { p with current := none } :: es)
    | _ => none
  | '&', es => some (.type { p with factors := p.factors ++ [t], current := none }, es)
  | '|', es =>
    some (.type ⟨p.alternatives ++ [.combine .intersection (p.factors ++ [t])], [], none⟩, es)
  | ')', .parentheses outer :: es => p.whole?.map fun t => (.type (outer.set t), es)
  | ',', .arguments name args outer :: es =>
    p.whole?.map fun t => (.type {}, .arguments name (args ++ [t]) outer :: es)
  | '>', .arguments name args outer :: es =>
    p.whole?.map fun t => (.type (outer.set (.apply name (args ++ [t]))), es)
  | ';', .field fields key required outer :: es =>
    p.whole?.map fun t => (.key (fields ++ [(key, required, t)]) outer, es)
  | '}', .field fields key required outer :: es =>
    p.whole?.map fun t => (.type (outer.set (.object (fields ++ [(key, required, t)]))), es)
  | _, _ => none

def step : Machine → Lexeme → Option Machine
  | (.type p, es), .atom text =>
    if p.current.isSome then none else some (.type (p.set (.atom text)), es)
  | (.type p, es), .mark c =>
    match p.current with
    | some t => behind p t c es
    | none =>
      if c = '(' then some (.type {}, .parentheses p :: es)
      else if c = '{' then some (.key [] p, es)
      else none
  | (.bracket p, es), .mark ']' => p.current.map fun t => (.type (p.set (.array t)), es)
  | (.key fields outer, es), .atom key => some (.colon fields key true outer, es)
  | (.key fields outer, es), .mark '}' => some (.type (outer.set (.object fields)), es)
  | (.colon fields key _ outer, es), .mark '?' => some (.colon fields key false outer, es)
  | (.colon fields key required outer, es), .mark ':' =>
    some (.type {}, .field fields key required outer :: es)
  | _, _ => none

/-- Takes one lexeme after the other. -/
def run (m : Machine) (ls : List Lexeme) : Option Machine :=
  ls.foldlM step m

theorem run_cons (m : Machine) (l : Lexeme) (ls : List Lexeme) :
    run m (l :: ls) = (step m l).bind fun m' => run m' ls := rfl

theorem run_append (m : Machine) (ls ls' : List Lexeme) :
    run m (ls ++ ls') = (run m ls).bind fun m' => run m' ls' :=
  List.foldlM_append

/-- How the machine follows the lexemes of a type. -/
def Follows : Level → List Lexeme → TypeTree → Prop
  | .operand, ls, t => ∀ p es, p.current = none →
    run (.type p, es) ls = some (.type (p.set t), es)
  | .operator .intersection, ls, t => ∀ alternatives es, ∃ factors last,
    .combine .intersection (factors ++ [last]) = t ∧
      run (.type ⟨alternatives, [], none⟩, es) ls =
        some (.type ⟨alternatives, factors, some last⟩, es)
  | .operator .union, ls, t => ∀ es, ∃ p, p.whole? = some t ∧
    run (.type {}, es) ls = some (.type p, es)

variable {parts : List (List Lexeme × TypeTree)}

theorem follows_factors (nonempty : parts ≠ []) (each : ∀ p ∈ parts, Follows .operand p.1 p.2)
    (p : Partial) (es : List Enclosure) (fresh : p.current = none) : ∃ factors last,
      factors ++ [last] = p.factors ++ parts.map (·.2) ∧
      run (.type p, es) (joined '&' (parts.map (·.1))) =
        some (.type ⟨p.alternatives, factors, some last⟩, es) := by
  induction parts generalizing p with
  | nil => exact absurd rfl nonempty
  | cons a parts ih =>
    obtain ⟨here, others⟩ := List.forall_mem_cons.1 each
    cases parts with
    | nil =>
      refine ⟨p.factors, a.2, rfl, ?_⟩
      rw [List.map_cons, List.map_nil, joined_singleton, here p es fresh]
      rfl
    | cons b parts =>
      obtain ⟨factors, last, split, result⟩ := ih (List.cons_ne_nil b parts) others
        { p with factors := p.factors ++ [a.2], current := none } rfl
      refine ⟨factors, last, by simpa using split, ?_⟩
      rw [List.map_cons, List.map_cons, joined_cons_cons, run_append, here p es fresh]
      exact result

theorem follows_alternatives (nonempty : parts ≠ [])
    (each : ∀ p ∈ parts, Follows (.operator .intersection) p.1 p.2)
    (alternatives : List TypeTree) (es : List Enclosure) : ∃ p last,
      p.current = some last ∧
      p.alternatives ++ [.combine .intersection (p.factors ++ [last])] =
        alternatives ++ parts.map (·.2) ∧
      run (.type ⟨alternatives, [], none⟩, es) (joined '|' (parts.map (·.1))) =
        some (.type p, es) := by
  induction parts generalizing alternatives with
  | nil => exact absurd rfl nonempty
  | cons a parts ih =>
    obtain ⟨here, others⟩ := List.forall_mem_cons.1 each
    obtain ⟨factors, last, tree, first⟩ := here alternatives es
    cases parts with
    | nil =>
      refine ⟨⟨alternatives, factors, some last⟩, last, rfl, by simp [tree], ?_⟩
      rw [List.map_cons, List.map_nil, joined_singleton, first]
    | cons b parts =>
      obtain ⟨p, last', current, split, result⟩ :=
        ih (List.cons_ne_nil b parts) others (alternatives ++ [a.2])
      refine ⟨p, last', current, by simpa using split, ?_⟩
      rw [List.map_cons, List.map_cons, joined_cons_cons, run_append, first, ← result, ← tree]
      rfl

theorem follows_operator (op : Operator) (nonempty : parts ≠ [])
    (each : ∀ p ∈ parts, Follows op.tighter p.1 p.2) :
    Follows (.operator op) (joined op.sign (parts.map (·.1))) (combine op (parts.map (·.2))) := by
  cases op with
  | intersection =>
    intro alternatives es
    obtain ⟨factors, last, split, result⟩ :=
      follows_factors nonempty each ⟨alternatives, [], none⟩ es rfl
    exact ⟨factors, last, by rw [split]; rfl, result⟩
  | union =>
    intro es
    obtain ⟨p, last, current, split, result⟩ := follows_alternatives nonempty each [] es
    refine ⟨p, ?_, result⟩
    rw [Partial.whole?, current, Option.map_some, split]
    rfl

theorem follows_arguments {name : List Char} {outer : Partial} {es : List Enclosure}
    (nonempty : parts ≠ []) (each : ∀ p ∈ parts, Follows (.operator .union) p.1 p.2)
    (args : List TypeTree) :
    run (.type {}, .arguments name args outer :: es)
        (joined ',' (parts.map (·.1)) ++ [.mark '>']) =
      some (.type (outer.set (.apply name (args ++ parts.map (·.2)))), es) := by
  induction parts generalizing args with
  | nil => exact absurd rfl nonempty
  | cons a parts ih =>
    obtain ⟨here, others⟩ := List.forall_mem_cons.1 each
    obtain ⟨p, whole, first⟩ := here (.arguments name args outer :: es)
    obtain ⟨t, current, -⟩ := Option.map_eq_some_iff.1 whole
    have close (c : Char) : step (.type p, .arguments name args outer :: es) (.mark c) =
        behind p t c (.arguments name args outer :: es) := by
      rw [step, current]
    cases parts with
    | nil =>
      rw [List.map_cons, List.map_nil, joined_singleton, run_append, first, Option.bind_some,
        run_cons, close, behind, whole]
      rfl
    | cons b parts =>
      rw [List.map_cons, List.map_cons, joined_cons_cons, List.append_assoc, run_append, first,
        Option.bind_some, List.cons_append, run_cons, close, behind, whole]
      have rest := ih (List.cons_ne_nil b parts) others (args ++ [a.2])
      simpa using rest

theorem follows_fields {fields : List FieldReading} {outer : Partial} {es : List Enclosure}
    (each : ∀ f ∈ fields, Follows (.operator .union) f.lexemes f.tree)
    (done : List (List Char × Bool × TypeTree)) :
    run (.key done outer, es) (joined ';' (fields.map (·.written)) ++ [.mark '\x7d']) =
      some (.type (outer.set (.object (done ++ fields.map (·.read)))), es) := by
  induction fields generalizing done with
  | nil => simp [joined, run, step]
  | cons f fields ih =>
    obtain ⟨here, others⟩ := List.forall_mem_cons.1 each
    obtain ⟨p, whole, first⟩ := here (.field done f.key f.required outer :: es)
    obtain ⟨t, current, -⟩ := Option.map_eq_some_iff.1 whole
    have opened : run (.key done outer, es) f.written =
        some (.type p, .field done f.key f.required outer :: es) := by
      rw [FieldReading.written, ← first]
      cases f.required <;> rfl
    have close (c : Char) : step (.type p, .field done f.key f.required outer :: es) (.mark c) =
        behind p t c (.field done f.key f.required outer :: es) := by
      rw [step, current]
    cases fields with
    | nil =>
      rw [List.map_cons, List.map_nil, joined_singleton, run_append, opened, Option.bind_some,
        run_cons, close, behind, whole]
      rfl
    | cons g fields =>
      rw [List.map_cons, List.map_cons, joined_cons_cons, List.append_assoc, run_append, opened,
        Option.bind_some, List.cons_append, run_cons, close, behind, whole]
      have rest := ih others (done ++ [f.read])
      simpa [FieldReading.read] using rest

theorem follows_of_reads {level : Level} {ls : List Lexeme} {t : TypeTree}
    (h : Reads level ls t) : Follows level ls t := by
  induction h with
  | atom text =>
    intro p es fresh
    simp [run, step, fresh]
  | @parentheses ls t _ ih =>
    intro p es fresh
    obtain ⟨q, whole, inside⟩ := ih (.parentheses p :: es)
    obtain ⟨u, current, -⟩ := Option.map_eq_some_iff.1 whole
    have opened : step (.type p, es) (.mark '(') = some (.type {}, .parentheses p :: es) := by
      simp [step, fresh]
    rw [List.cons_append, run_cons, opened, Option.bind_some, run_append, inside]
    simp [run, step, current, behind, whole]
  | @array ls t _ ih =>
    intro p es fresh
    rw [run_append, ih p es fresh]
    rfl
  | @apply name args nonempty each ih =>
    rintro ⟨alternatives, factors, current⟩ es fresh
    obtain rfl : current = none := fresh
    exact follows_arguments nonempty ih []
  | @object fields each ih =>
    intro p es fresh
    have opened : step (.type p, es) (.mark '\x7b') = some (.key [] p, es) := by
      simp [step, fresh]
    rw [List.cons_append, run_cons, opened, Option.bind_some, follows_fields ih]
    rfl
  | operator op nonempty each ih => exact follows_operator op nonempty ih

end Machine

/-- The grammar is unambiguous. -/
theorem Reads.unique {ls : List Lexeme} {t u : TypeTree} (ht : Reads (.operator .union) ls t)
    (hu : Reads (.operator .union) ls u) : t = u := by
  obtain ⟨p, whole, run⟩ := Machine.follows_of_reads ht []
  obtain ⟨p', whole', run'⟩ := Machine.follows_of_reads hu []
  rw [run, Option.some.injEq, Prod.mk.injEq, Stage.type.injEq] at run'
  rw [← run'.1, whole, Option.some.injEq] at whole'
  exact whole'

end OpenApiModels.TypeScript
