import Mathlib
import PositionAutomata.Automaton.Drawing

/-
  The statements of a drawing, read back.

  A line is read as the DOT language has it, whatever it was written from: an edge
  by its two names and its quoted label, without the backslashes that escape
  (`EdgeStatement.ofLine?`), a node by its name and its label between `<` and `>`,
  of which the markup is kept: the tags, and the entities that `&` begins
  (`NodeStatement.ofLine?`).

  A quoted label is read as the text that was escaped, whatever the text
  (`unquote?_escape`). Between `<` and `>` nothing is escaped. There the markup that
  is read is that of the table alone exactly if no name of a group has a character
  that marks up (`NodeStatement.ofLine?_nodeText_iff`): each such character is
  either part of the markup that is read, or the end of the label
  (`countP_of_readLabel?`).
-/

namespace PositionAutomata.Drawing

variable {source target i : Nat} {rs : List Range} {q : State} {cs rest : List Char} {c : Char}

/-! ## Lines -/

/-- The line of an edge, without the line feed. -/
def edgeText (source target : Nat) (rs : List Range) : List Char :=
  '\t' :: node source ++ " -> ".toList ++ node target ++ " [ label=\"".toList ++
    escape (Label.chars rs) ++ "\" ]".toList

/-- The label of a node up to its events. -/
def labelHead (i : Nat) (q : State) : List Char :=
  "<TABLE BORDER=\"0\">".toList ++ row ("q<SUB>".toList ++ i.repr.toList ++ "</SUB>".toList) ++
    q.accept.elim [] (fun symbol => row symbol.repr.toList)

/-- The label of a node. -/
def labelText (i : Nat) (q : State) : List Char :=
  labelHead i q ++ q.events.flatMap (fun e => row e.chars) ++ "</TABLE>".toList

/-- The line of a node, without the line feed. -/
def nodeText (i : Nat) (q : State) : List Char :=
  '\t' :: node i ++ " [ label=<".toList ++ labelText i q ++ '>' :: (shape q ++ " ]".toList)

theorem edgeLine_eq : edgeLine source target rs = edgeText source target rs ++ ['\n'] := by
  have hend : "\" ]\n".toList = "\" ]".toList ++ ['\n'] := rfl
  simp only [edgeLine, edgeText, hend, List.append_assoc]

theorem nodeLine_eq : nodeLine i q = nodeText i q ++ ['\n'] := by
  show '\t' :: node i ++ (" [ label=<".toList ++ "<TABLE BORDER=\"0\">".toList) ++
    row ("q<SUB>".toList ++ i.repr.toList ++ "</SUB>".toList) ++
    q.accept.elim [] (fun symbol => row symbol.repr.toList) ++
    q.events.flatMap (fun e => row e.chars) ++ ("</TABLE>".toList ++ ['>']) ++ shape q ++
    (" ]".toList ++ ['\n']) = nodeText i q ++ ['\n']
  unfold nodeText labelText labelHead
  -- What the texts are does not matter from here on, and comparing them would take long.
  generalize " [ label=<".toList = opening
  generalize "<TABLE BORDER=\"0\">".toList = table
  generalize "</TABLE>".toList = closing
  generalize " ]".toList = ending
  simp only [List.append_assoc, List.cons_append, List.nil_append]

/-! ## Names -/

/-- The text without a beginning that it has to have. -/
def expect? (beginning cs : List Char) : Option (List Char) := cs.dropPrefix? beginning

/-- The letters and digits that the text begins with, and what follows them. -/
def identifier (cs : List Char) : List Char × List Char := cs.span Char.isAlphanum

theorem expect?_append (beginning rest : List Char) :
    expect? beginning (beginning ++ rest) = some rest :=
  List.dropPrefix?_append_of_beq rest (beq_self_eq_true beginning)

theorem isDigit_of_mem_repr {n : Nat} (h : c ∈ n.repr.toList) : c.isDigit = true := by
  rw [Nat.toList_repr] at h
  exact Nat.isDigit_of_mem_toDigits (by decide) (by decide) h

theorem isAlphanum_of_mem_node (h : c ∈ node i) : c.isAlphanum = true := by
  obtain rfl | h := List.mem_cons.mp h
  · rfl
  · simp [Char.isAlphanum, isDigit_of_mem_repr h]

theorem identifier_node (i : Nat) (rest : List Char) :
    identifier (node i ++ ' ' :: rest) = (node i, ' ' :: rest) := by
  have halphanum : ∀ c ∈ node i, c.isAlphanum = true := fun _ => isAlphanum_of_mem_node
  rw [identifier, List.span_eq_takeWhile_dropWhile, List.takeWhile_append_of_pos halphanum,
    List.dropWhile_append_of_pos halphanum]
  simp [Char.isAlphanum, Char.isAlpha, Char.isUpper, Char.isLower, Char.isDigit]

theorem node_injective {j : Nat} (h : node i = node j) : i = j :=
  Nat.repr_injective (String.toList_injective (List.cons.inj h).2)

/-! ## Quoted texts -/

/-- The text up to the quote that ends it, without the backslashes that escape, and what follows. -/
def unquote? : List Char → Option (List Char × List Char)
  | [] => none
  | ['\\'] => none
  | '\\' :: c :: rest => (unquote? rest).map fun p => (c :: p.1, p.2)
  | c :: rest => if c = '"' then some ([], rest) else (unquote? rest).map fun p => (c :: p.1, p.2)

theorem unquote?_cons (hquote : c ≠ '"') (hbackslash : c ≠ '\\') :
    unquote? (c :: cs) = (unquote? cs).map fun p => (c :: p.1, p.2) := by
  rw [unquote?, if_neg hquote]
  · exact fun h => absurd h hbackslash
  · exact fun _ _ h => absurd h hbackslash

/-- An escaped text between quotes is read as the text. -/
theorem unquote?_escape (cs rest : List Char) :
    unquote? (escape cs ++ '"' :: rest) = some (cs, rest) := by
  induction cs with
  | nil => rfl
  | cons c cs ih =>
    rw [escape, List.flatMap_cons, ← escape, List.append_assoc]
    split
    · rw [List.cons_append, List.singleton_append, unquote?, ih]
      rfl
    next h =>
      obtain ⟨hquote, hbackslash⟩ : c ≠ '"' ∧ c ≠ '\\' := by simpa using h
      rw [List.singleton_append, unquote?_cons hquote hbackslash, ih]
      rfl

/-! ## Edges -/

/-- An edge: the names of its nodes, and its label. -/
structure EdgeStatement where
  source : List Char
  target : List Char
  label : List Char
  deriving DecidableEq

/-- The edge that a line says there is. -/
def EdgeStatement.ofLine? (line : List Char) : Option EdgeStatement := do
  let (source, rest) := identifier (← expect? ['\t'] line)
  let (target, rest) := identifier (← expect? " -> ".toList rest)
  let (label, rest) ← unquote? (← expect? " [ label=\"".toList rest)
  if rest = " ]".toList then some ⟨source, target, label⟩ else none

/-- What a line says about a node: its name, and what follows the beginning of its label. -/
def nodeHead? (line : List Char) : Option (List Char × List Char) := do
  let (name, rest) := identifier (← expect? ['\t'] line)
  return (name, ← expect? " [ label=<".toList rest)

/-- The name of the node that a line is about. -/
def nodeName? (line : List Char) : Option (List Char) := (nodeHead? line).map Prod.fst

theorem EdgeStatement.ofLine?_edgeText :
    ofLine? (edgeText source target rs) = some ⟨node source, node target, Label.chars rs⟩ := by
  have hline : edgeText source target rs = ['\t'] ++ (node source ++ (" -> ".toList ++
      (node target ++ (" [ label=\"".toList ++
        (escape (Label.chars rs) ++ '"' :: " ]".toList))))) := by
    simp only [edgeText, List.append_assoc]
    rfl
  have hsource : ∀ rest, identifier (node source ++ (" -> ".toList ++ rest)) =
      (node source, " -> ".toList ++ rest) :=
    fun rest => identifier_node source ("-> ".toList ++ rest)
  have htarget : ∀ rest, identifier (node target ++ (" [ label=\"".toList ++ rest)) =
      (node target, " [ label=\"".toList ++ rest) :=
    fun rest => identifier_node target ("[ label=\"".toList ++ rest)
  simp only [ofLine?, hline, expect?_append, hsource, htarget, unquote?_escape, if_true,
    Option.bind_eq_bind, Option.bind_some]

theorem nodeHead?_nodeText :
    nodeHead? (nodeText i q) =
      some (node i, labelText i q ++ '>' :: (shape q ++ " ]".toList)) := by
  have hline : nodeText i q = ['\t'] ++ (node i ++ (" [ label=<".toList ++
      (labelText i q ++ '>' :: (shape q ++ " ]".toList)))) := by
    simp only [nodeText, List.append_assoc]
    rfl
  have hname : ∀ rest, identifier (node i ++ (" [ label=<".toList ++ rest)) =
      (node i, " [ label=<".toList ++ rest) :=
    fun rest => identifier_node i ("[ label=<".toList ++ rest)
  simp only [nodeHead?, hline, expect?_append, hname, Option.bind_eq_bind, Option.bind_some,
    Option.pure_def]

theorem nodeName?_nodeText : nodeName? (nodeText i q) = some (node i) := by
  rw [nodeName?, nodeHead?_nodeText, Option.map_some]

theorem EdgeStatement.ofLine?_nodeText : ofLine? (nodeText i q) = none := by
  have hline : nodeText i q = ['\t'] ++ (node i ++ ' ' :: ("[ label=<".toList ++
      (labelText i q ++ '>' :: (shape q ++ " ]".toList)))) := by
    simp only [nodeText, List.append_assoc]
    rfl
  have harrow : ∀ rest, expect? " -> ".toList (' ' :: ("[ label=<".toList ++ rest)) = none :=
    fun _ => rfl
  rw [ofLine?, hline, expect?_append, Option.bind_eq_bind, Option.bind_some, identifier_node]
  dsimp only
  rw [harrow]
  rfl

theorem nodeName?_edgeText : nodeName? (edgeText source target rs) = none := by
  have hline : edgeText source target rs = ['\t'] ++ (node source ++ ' ' :: ("-> ".toList ++
      (node target ++ (" [ label=\"".toList ++ (escape (Label.chars rs) ++ "\" ]".toList))))) := by
    simp only [edgeText, List.append_assoc]
    rfl
  have hlabel : ∀ rest, expect? " [ label=<".toList (' ' :: ("-> ".toList ++ rest)) = none :=
    fun _ => rfl
  rw [nodeName?, nodeHead?, hline, expect?_append, Option.bind_eq_bind, Option.bind_some,
    identifier_node]
  dsimp only
  rw [hlabel]
  rfl

/-! ## Markup -/

/-- The characters that mark up. -/
def isMark (c : Char) : Bool := c = '<' || c = '>' || c = '&'

/-- A piece of markup: a tag, by what is between its brackets, or the beginning of an entity. -/
inductive Markup where
  | tag (text : List Char)
  | entity
  deriving DecidableEq

/-- How many characters of a piece of markup mark up. -/
def Markup.marks : Markup → Nat
  | tag text => text.countP isMark + 2
  | entity => 1

/-- The markup up to the `>` that ends a label, and what follows; `tag` is what has been read of a
tag that is open, in reverse. -/
def readLabel? (tag : Option (List Char)) : List Char → Option (List Markup × List Char)
  | [] => none
  | c :: cs =>
    match tag with
    | none =>
      if c = '<' then readLabel? (some []) cs
      else if c = '>' then some ([], cs)
      else if c = '&' then (readLabel? none cs).map fun p => (.entity :: p.1, p.2)
      else readLabel? none cs
    | some text =>
      if c = '<' then none
      else if c = '>' then (readLabel? none cs).map fun p => (.tag text.reverse :: p.1, p.2)
      else readLabel? (some (c :: text)) cs

/-- Reading on outside of tags. -/
theorem readLabel?_outside :
    readLabel? none (c :: cs) =
      if c = '<' then readLabel? (some []) cs
      else if c = '>' then some ([], cs)
      else if c = '&' then (readLabel? none cs).map fun p => (.entity :: p.1, p.2)
      else readLabel? none cs :=
  rfl

/-- Reading on inside of a tag. -/
theorem readLabel?_inside (text : List Char) :
    readLabel? (some text) (c :: cs) =
      if c = '<' then none
      else if c = '>' then (readLabel? none cs).map fun p => (.tag text.reverse :: p.1, p.2)
      else readLabel? (some (c :: text)) cs :=
  rfl

/-- Each character that marks up is part of the markup that is read, or the end of the label. -/
theorem countP_of_readLabel? {tag : Option (List Char)} {ms : List Markup}
    (h : readLabel? tag cs = some (ms, rest)) :
    cs.countP isMark + tag.elim 0 (fun text => text.countP isMark + 1) =
      (ms.map Markup.marks).sum + 1 + rest.countP isMark := by
  induction cs generalizing tag ms with
  | nil => cases h
  | cons c cs ih =>
    rw [List.countP_cons]
    cases tag with
    | none =>
      rw [readLabel?_outside] at h
      split at h
      next hc =>
        have hcs := ih h
        simp [hc, isMark] at hcs ⊢
        omega
      split at h
      next hc =>
        cases h
        simp [hc, isMark]
        omega
      split at h
      next hc =>
        obtain ⟨p, hp, heq⟩ := Option.map_eq_some_iff.mp h
        cases heq
        have hcs := ih hp
        simp [hc, isMark, Markup.marks] at hcs ⊢
        omega
      next hopen hclose hentity =>
        have hcs := ih h
        simp [hopen, hclose, hentity, isMark] at hcs ⊢
        omega
    | some text =>
      rw [readLabel?_inside] at h
      split at h
      next => cases h
      split at h
      next hc =>
        obtain ⟨p, hp, heq⟩ := Option.map_eq_some_iff.mp h
        cases heq
        have hcs := ih hp
        simp [hc, isMark, Markup.marks] at hcs ⊢
        omega
      next =>
        have hcs := ih h
        simp [List.countP_cons] at hcs ⊢
        omega

/-- The characters hold this markup, wherever they stand in a label outside of tags. -/
def HasMarkup (cs : List Char) (ms : List Markup) : Prop :=
  ∀ rest, readLabel? none (cs ++ rest) = (readLabel? none rest).map fun p => (ms ++ p.1, p.2)

theorem HasMarkup.append {xs ys : List Char} {ms ns : List Markup} (hx : HasMarkup xs ms)
    (hy : HasMarkup ys ns) : HasMarkup (xs ++ ys) (ms ++ ns) := by
  intro rest
  rw [List.append_assoc, hx, hy, Option.map_map]
  congr 1
  funext p
  simp

theorem hasMarkup_nil : HasMarkup [] [] := fun rest => by simp

theorem HasMarkup.flatMap {α : Type} {xs : List α} {f : α → List Char} {g : α → List Markup}
    (h : ∀ x ∈ xs, HasMarkup (f x) (g x)) : HasMarkup (xs.flatMap f) (xs.flatMap g) := by
  induction xs with
  | nil => exact hasMarkup_nil
  | cons x xs ih =>
    obtain ⟨hx, hxs⟩ := List.forall_mem_cons.mp h
    exact hx.append (ih hxs)

theorem isMark_eq_false_iff : isMark c = false ↔ c ≠ '<' ∧ c ≠ '>' ∧ c ≠ '&' := by
  simp [isMark, and_assoc]

theorem hasMarkup_of_plain (h : ∀ c ∈ cs, isMark c = false) : HasMarkup cs [] := by
  induction cs with
  | nil => exact hasMarkup_nil
  | cons c cs ih =>
    obtain ⟨hc, hcs⟩ := List.forall_mem_cons.mp h
    obtain ⟨hopen, hclose, hentity⟩ := isMark_eq_false_iff.mp hc
    intro rest
    rw [List.cons_append, readLabel?_outside, if_neg hopen, if_neg hclose, if_neg hentity, ih hcs]

theorem readLabel?_tag (h : ∀ c ∈ cs, isMark c = false) (text rest : List Char) :
    readLabel? (some text) (cs ++ '>' :: rest) =
      (readLabel? none rest).map fun p => (.tag (text.reverse ++ cs) :: p.1, p.2) := by
  induction cs generalizing text with
  | nil =>
    rw [List.nil_append, List.append_nil, readLabel?_inside]
    rfl
  | cons c cs ih =>
    obtain ⟨hc, hcs⟩ := List.forall_mem_cons.mp h
    obtain ⟨hopen, hclose, _⟩ := isMark_eq_false_iff.mp hc
    rw [List.cons_append, readLabel?_inside, if_neg hopen, if_neg hclose, ih hcs, List.reverse_cons,
      List.append_assoc, List.singleton_append]

theorem hasMarkup_tag (h : ∀ c ∈ cs, isMark c = false) :
    HasMarkup ('<' :: cs ++ ['>']) [.tag cs] := by
  intro rest
  rw [List.append_assoc, List.cons_append, readLabel?_outside]
  exact readLabel?_tag h [] rest

theorem hasMarkup_tags (xs ys : List Char) (hx : ∀ c ∈ xs, isMark c = false)
    (hy : ∀ c ∈ ys, isMark c = false) :
    HasMarkup (('<' :: xs ++ ['>']) ++ ('<' :: ys ++ ['>'])) [.tag xs, .tag ys] :=
  (hasMarkup_tag hx).append (hasMarkup_tag hy)

/-! ## Nodes -/

/-- The markup of a row, given that of its text. -/
def rowMarkup (ms : List Markup) : List Markup :=
  [.tag "TR".toList, .tag "TD".toList] ++ ms ++ [.tag "/TD".toList, .tag "/TR".toList]

/-- The markup of a label up to its events. -/
def headMarkup (q : State) : List Markup :=
  [.tag "TABLE BORDER=\"0\"".toList] ++ rowMarkup [.tag "SUB".toList, .tag "/SUB".toList] ++
    q.accept.elim [] (fun _ => rowMarkup [])

/-- The markup of the table in a node. -/
def tableMarkup (q : State) : List Markup :=
  headMarkup q ++ q.events.flatMap (fun _ => rowMarkup []) ++ [.tag "/TABLE".toList]

/-- No name of a group in the state has a character that marks up. -/
def PlainNames (q : State) : Prop :=
  ∀ e ∈ q.events, ∀ name ∈ e.name, ∀ c ∈ name.toList, isMark c = false

theorem isMark_of_mem_repr {n : Nat} (h : c ∈ n.repr.toList) : isMark c = false := by
  have hdigit := isDigit_of_mem_repr h
  refine isMark_eq_false_iff.mpr ⟨?_, ?_, ?_⟩ <;> rintro rfl <;> exact absurd hdigit (by decide)

theorem HasMarkup.row {ms : List Markup} (h : HasMarkup cs ms) :
    HasMarkup (row cs) (rowMarkup ms) := by
  have hbegin : "<TR><TD>".toList =
      ('<' :: "TR".toList ++ ['>']) ++ ('<' :: "TD".toList ++ ['>']) := rfl
  have hend : "</TD></TR>".toList =
      ('<' :: "/TD".toList ++ ['>']) ++ ('<' :: "/TR".toList ++ ['>']) := rfl
  unfold Drawing.row rowMarkup
  rw [hbegin, hend]
  exact ((hasMarkup_tags "TR".toList "TD".toList (by simp [isMark]) (by simp [isMark])).append
    h).append (hasMarkup_tags "/TD".toList "/TR".toList (by simp [isMark]) (by simp [isMark]))

theorem hasMarkup_head : HasMarkup (labelHead i q) (headMarkup q) := by
  have hopen : "<TABLE BORDER=\"0\">".toList = '<' :: "TABLE BORDER=\"0\"".toList ++ ['>'] := rfl
  have hbegin : "q<SUB>".toList = ['q'] ++ ('<' :: "SUB".toList ++ ['>']) := rfl
  have hend : "</SUB>".toList = '<' :: "/SUB".toList ++ ['>'] := rfl
  have hdigits : ∀ n : Nat, HasMarkup n.repr.toList [] := fun n =>
    hasMarkup_of_plain fun _ => isMark_of_mem_repr
  have hnumber : HasMarkup ("q<SUB>".toList ++ i.repr.toList ++ "</SUB>".toList)
      [.tag "SUB".toList, .tag "/SUB".toList] := by
    rw [hbegin, hend]
    have hsub : HasMarkup (['q'] ++ ('<' :: "SUB".toList ++ ['>'])) [.tag "SUB".toList] :=
      (hasMarkup_of_plain (by simp [isMark])).append (hasMarkup_tag (by simp [isMark]))
    exact (hsub.append (hdigits i)).append (hasMarkup_tag (by simp [isMark]))
  have hsymbol : HasMarkup (q.accept.elim [] (fun symbol => row symbol.repr.toList))
      (q.accept.elim [] (fun _ => rowMarkup [])) := by
    cases q.accept with
    | none => exact hasMarkup_nil
    | some symbol => exact (hdigits symbol).row
  unfold labelHead headMarkup
  rw [hopen]
  exact ((hasMarkup_tag (by simp [isMark])).append hnumber.row).append hsymbol

theorem hasMarkup_end : HasMarkup "</TABLE>".toList [.tag "/TABLE".toList] := by
  have hclose : "</TABLE>".toList = '<' :: "/TABLE".toList ++ ['>'] := rfl
  rw [hclose]
  exact hasMarkup_tag (by simp [isMark])

/-- What an event marks up is marked up by its name. -/
theorem countP_chars (e : CaptureEvent) :
    e.chars.countP isMark = (e.name.elim [] String.toList).countP isMark := by
  have hdigits : e.group.repr.toList.countP isMark = 0 :=
    List.countP_eq_zero.mpr fun c hc => by simp [isMark_of_mem_repr hc]
  have hkind : (if e.isStart then "start(" else "end(").toList.countP isMark = 0 := by
    split <;> simp [isMark]
  rw [CaptureEvent.chars, List.countP_append, List.countP_append, List.countP_append, hdigits,
    hkind]
  cases e.name <;> simp [isMark]

theorem hasMarkup_labelText (h : PlainNames q) : HasMarkup (labelText i q) (tableMarkup q) := by
  have hevents : ∀ e ∈ q.events, HasMarkup (row e.chars) (rowMarkup []) := by
    intro e he
    have hcount : e.chars.countP isMark = 0 := by
      rw [countP_chars, List.countP_eq_zero]
      cases hname : e.name with
      | none => simp
      | some name => simpa using h e he name hname
    refine (hasMarkup_of_plain fun c hc => ?_).row
    simpa using List.countP_eq_zero.mp hcount c hc
  exact (hasMarkup_head.append (.flatMap hevents)).append hasMarkup_end

/-- Markup takes all characters that mark up. -/
theorem HasMarkup.countP {ms : List Markup} (h : HasMarkup cs ms) :
    cs.countP isMark = (ms.map Markup.marks).sum := by
  have hread : readLabel? none (cs ++ ['>']) = some (ms, []) := by
    rw [h]
    simp [readLabel?]
  have hcount := countP_of_readLabel? hread
  rw [List.countP_append] at hcount
  simpa [isMark] using hcount

theorem countP_row (cs : List Char) :
    (row cs).countP isMark = ((rowMarkup []).map Markup.marks).sum + cs.countP isMark := by
  rw [← hasMarkup_nil.row.countP]
  unfold row
  generalize "<TR><TD>".toList = opening
  generalize "</TD></TR>".toList = closing
  simp only [List.countP_append, List.countP_nil]
  omega

theorem countP_rows (es : List CaptureEvent) : (es.flatMap fun e => row e.chars).countP isMark =
    ((es.flatMap fun _ => rowMarkup []).map Markup.marks).sum +
      (es.flatMap CaptureEvent.chars).countP isMark := by
  have hrow := countP_row
  generalize rowMarkup [] = ms at hrow ⊢
  induction es with
  | nil => rfl
  | cons e es ih =>
    simp only [List.flatMap_cons, List.countP_append, List.map_append, List.sum_append, hrow, ih]
    omega

/-- A label is marked up by its table and by the names in it. -/
theorem countP_labelText : (labelText i q).countP isMark =
    ((tableMarkup q).map Markup.marks).sum +
      (q.events.flatMap CaptureEvent.chars).countP isMark := by
  rw [labelText, tableMarkup, List.countP_append, List.countP_append, hasMarkup_head.countP,
    hasMarkup_end.countP, countP_rows, List.map_append, List.map_append, List.sum_append,
    List.sum_append]
  omega

/-- A node: its name, and the markup of its label. -/
structure NodeStatement where
  name : List Char
  markup : List Markup
  deriving DecidableEq

/-- Whether these characters can end a line after a label: other attributes, and a bracket. -/
def isEnding (cs : List Char) : Bool :=
  " ]".toList.isSuffixOf cs && cs.all fun c => c.isAlphanum || [',', ' ', '=', ']'].contains c

/-- The node that a line says there is, if its label can be read. -/
def NodeStatement.ofLine? (line : List Char) : Option NodeStatement := do
  let (name, rest) ← nodeHead? line
  let (markup, rest) ← readLabel? none rest
  if isEnding rest then some ⟨name, markup⟩ else none

theorem isEnding_shape (q : State) : isEnding (shape q ++ " ]".toList) = true := by
  rw [shape]
  split
  · rfl
  split <;> rfl

theorem countP_of_isEnding (h : isEnding cs = true) : cs.countP isMark = 0 := by
  refine List.countP_eq_zero.mpr fun c hc hmark => ?_
  have hend := List.all_eq_true.mp (Bool.and_eq_true_iff.mp h).2 c hc
  simp only [isMark, Bool.or_eq_true, decide_eq_true_eq] at hmark
  rcases hmark with (rfl | rfl) | rfl <;> exact absurd hend (by decide)

theorem plainNames_iff :
    PlainNames q ↔ (q.events.flatMap CaptureEvent.chars).countP isMark = 0 := by
  rw [List.countP_flatMap, List.sum_eq_zero_iff]
  simp only [List.forall_mem_map, Function.comp_apply, countP_chars, PlainNames]
  refine forall₂_congr fun e _ => ?_
  cases e.name <;> simp [List.countP_eq_zero]

/-- The line of a node is read as a label whose markup is that of the table and nothing else exactly
if no name in it has a character that marks up. -/
theorem NodeStatement.ofLine?_nodeText_iff :
    (∃ n, ofLine? (nodeText i q) = some n ∧ n.markup = tableMarkup q) ↔ PlainNames q := by
  constructor
  · rintro ⟨n, hn, hmarkup⟩
    simp only [ofLine?, nodeHead?_nodeText, Option.bind_eq_bind, Option.bind_some,
      Option.bind_eq_some_iff] at hn
    obtain ⟨⟨ms, rest⟩, hread, hn⟩ := hn
    split at hn
    next hend =>
      cases hn
      obtain rfl := hmarkup
      -- All characters of the line that mark up are taken by the table and the end of the label.
      have hcount := countP_of_readLabel? hread
      rw [List.countP_append, countP_labelText, List.countP_cons,
        countP_of_isEnding (isEnding_shape q), countP_of_isEnding hend] at hcount
      simp only [Option.elim_none, isMark, decide_true, Bool.or_true, Bool.true_or,
        if_true] at hcount
      rw [plainNames_iff]
      omega
    next => cases hn
  · intro h
    have hread : readLabel? none (labelText i q ++ '>' :: (shape q ++ " ]".toList)) =
        some (tableMarkup q, shape q ++ " ]".toList) := by
      rw [hasMarkup_labelText h, readLabel?]
      simp
    refine ⟨⟨node i, tableMarkup q⟩, ?_, rfl⟩
    simp only [ofLine?, nodeHead?_nodeText, Option.bind_eq_bind, Option.bind_some, hread,
      isEnding_shape, if_true]

end PositionAutomata.Drawing
