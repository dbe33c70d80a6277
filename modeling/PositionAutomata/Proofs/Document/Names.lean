import PositionAutomata.Proofs.Construction.Groups
import PositionAutomata.Proofs.Reading
import PositionAutomata.Proofs.TokenSpans

/-
  The names of the groups of a document.

  A word is made of characters that separate nothing (`Lexer.IsWord`), and every
  word that the lexer makes of a text is one (`Lexer.worded_of_mem_items`). The
  reader takes the names of groups from words and keeps those that are there
  (`Reader.keptByForms_worded`), so the names in a tree that is read are words
  (`Tree.allGroups_worded_of_ofString`).
-/

namespace PositionAutomata

/-- The characters are those of a word. -/
def Lexer.IsWord (cs : List Char) : Prop := ∀ c ∈ cs, isSeparator c = false

/-- The name of the group, if it has one, is a word. -/
def Group.Worded (g : Group) : Prop := ∀ name ∈ g.name, Lexer.IsWord name.toList

/-- The words in the token are words. -/
def Token.Worded (t : Token) : Prop := ∀ span cs, .ident span cs ∈ t.parts → Lexer.IsWord cs

namespace Lexer

theorem worded_of_mem_items {a : List Char} {t : Token}
    (ht : .ok t ∈ (ofSource (.ofChars a)).items) : t.Worded := by
  intro span cs hcs
  have hmem : t ∈ (ofSource (.ofChars a)).items.filterMap Except.toOption :=
    List.mem_filterMap.mpr ⟨_, ht, rfl⟩
  obtain ⟨_, _, _, _, hstands⟩ := (spread_items rfl).standsIn hmem
  obtain ⟨_, _, _, _, _, _, _, hword⟩ := hstands.standsIn_of_mem_parts hcs
  exact hword

end Lexer

theorem Token.Worded.item {span : Span} {items : List Token} (h : (group span items).Worded) :
    ∀ t ∈ items, t.Worded := fun t ht span cs hcs =>
  h span cs (mem_parts_group.mpr (.inr ⟨t, ht, hcs⟩))

/-! ## Trees -/

namespace Tree

variable {t : Tree} {p : Group → Prop}

/-- All capture groups of a tree satisfy a property. -/
def AllGroups (p : Group → Prop) (t : Tree) : Prop :=
  ∀ id e g, t.get? id = some (.capture e g) → p g

theorem allGroups_empty : empty.AllGroups p := by
  intro id e g h
  simp [get?, empty] at h

theorem AllGroups.place (h : t.AllGroups p) {n : Node} (hn : ∀ e g, n = .capture e g → p g) :
    (place n t).2.AllGroups p := by
  intro id e g hg
  rw [get?_place] at hg
  split at hg
  · exact hn e g (Option.some.inj hg)
  · exact h id e g hg

theorem AllGroups.chain (h : t.AllGroups p) (node : NodeId → NodeId → Node)
    (hnode : ∀ l r e g, node l r = .capture e g → p g) (ids : List NodeId) :
    (chain (fun l r => Tree.place (node l r)) ids t).2.AllGroups p := by
  cases ids with
  | nil => exact h.place nofun
  | cons id ids =>
    rw [Tree.chain]
    induction ids generalizing id t with
    | nil => exact h
    | cons id' ids ih => exact ih (h.place (hnode id id')) _

theorem AllGroups.leaves (h : t.AllGroups p) (cs : List Char) :
    ((cs.mapM fun c => leaf (.codepoint c.toNat)) t).2.AllGroups p := by
  induction cs generalizing t with
  | nil => exact h
  | cons c cs ih =>
    rw [List.mapM_cons]
    exact ih (h.place nofun)

/-- What holds of the groups of a tree holds of those of the expressions in it. -/
theorem AllGroups.expr (h : t.AllGroups p) {id : NodeId} {e : Expr NodeId}
    (he : t.expr id = .ok e) : e.AllGroups p := by
  refine Expr.allGroups_iff.mpr fun a g x hx => ?_
  have hnode := get?_of_expr (expr_of_mem_subexprs he _ hx)
  exact h _ _ _ hnode

end Tree

/-! ## Steps of the reader -/

namespace Reader

variable {α β : Type} {p : Group → Prop}

/-- A step after which all groups of the tree have a property if they had it before. -/
def KeepsGroups (p : Group → Prop) (x : Read α) : Prop :=
  ∀ ⦃s a s'⦄, x.run s = .ok (a, s') → s.tree.AllGroups p → s'.tree.AllGroups p

theorem KeepsGroups.bind {x : Read α} {f : α → Read β} (hx : KeepsGroups p x)
    (hf : ∀ a, KeepsGroups p (f a)) : KeepsGroups p (x >>= f) := by
  intro s b s' h hs
  obtain ⟨a, s₁, hrun, h⟩ := run_bind_eq_ok.mp h
  exact hf a h (hx hrun hs)

theorem Steady.keepsGroups {x : Read α} (hx : Steady x) : KeepsGroups p x := by
  intro s a s' h hs
  obtain rfl := hx h
  exact hs

theorem keepsGroups_pure (a : α) : KeepsGroups p (pure a) := (steady_pure a).keepsGroups

theorem keepsGroups_newGroup : KeepsGroups p newGroup := by
  intro s n s' h hs
  cases h
  exact hs

theorem keepsGroups_add {step : Tree.Step NodeId}
    (h : ∀ t : Tree, t.AllGroups p → (step t).2.AllGroups p) : KeepsGroups p (add step) := by
  intro s id s' hrun hs
  cases hrun
  exact h s.tree hs

theorem keepsGroups_concatAll (ids : List NodeId) : KeepsGroups p (add (Tree.concatAll ids)) :=
  keepsGroups_add fun _ h => h.chain .concat nofun ids

theorem keepsGroups_anyOf (ids : List NodeId) : KeepsGroups p (add (Tree.anyOf ids)) :=
  keepsGroups_add fun _ h => h.chain .alternation nofun ids

theorem keepsGroups_string (cs : List Char) : KeepsGroups p (add (Tree.string cs)) :=
  keepsGroups_add fun _ h => (h.leaves cs).chain .concat nofun _

theorem keepsGroups_capture {g : Group} (hg : p g) (id : NodeId) :
    KeepsGroups p (add (Tree.capture id g)) := by
  refine keepsGroups_add fun _ h => h.place fun e g' he => ?_
  cases he
  exact hg

/-- A capture that is named by a token has the word that the token is as its name. -/
theorem keepsGroups_labelled {x : Read NodeId} (hx : KeepsGroups Group.Worded x) {t : Token}
    (ht : t.Worded) (number : Nat) :
    KeepsGroups Group.Worded (name t >>= fun label =>
      x >>= fun id => add (Tree.capture id ⟨number, some label⟩)) := by
  cases t with
  | ident span cs =>
    have hword : Group.Worded ⟨number, some (String.ofList cs)⟩ := by
      rintro _ ⟨rfl⟩
      rw [String.toList_ofList]
      exact ht span cs (Token.mem_parts_self _)
    exact hx.bind fun id => keepsGroups_capture hword id
  | _ => exact nofun

theorem keptByForms_worded :
    KeptByForms Token.Worded (KeepsGroups Group.Worded) (KeepsGroups Group.Worded) where
  item := Token.Worded.item
  fault _ := (steady_fault _ _).keepsGroups
  leaf _ := keepsGroups_add fun _ h => h.place nofun
  string := keepsGroups_string
  nil := keepsGroups_pure []
  cons hx hy := hx.bind fun _ => hy.bind fun _ => keepsGroups_pure _
  concatAll hx := hx.bind keepsGroups_concatAll
  anyOf hx := hx.bind keepsGroups_anyOf
  repetition hx _ := hx.bind fun _ => keepsGroups_add fun _ h => h.place nofun
  name t _ := (steady_name t).keepsGroups.bind
  bound t _ := (steady_bound t).keepsGroups.bind
  capture hx := keepsGroups_newGroup.bind fun _ => hx.bind (keepsGroups_capture nofun)
  labelled hx _ ht := keepsGroups_newGroup.bind (keepsGroups_labelled hx ht)
  uncaptured _ := keepsGroups_newGroup.bind fun _ => (steady_fault _ _).keepsGroups

theorem keepsGroups_readItems {items : List Lexer.Item} (h : ∀ t, .ok t ∈ items → t.Worded)
    (span : Span) (alternatives : List NodeId) :
    KeepsGroups Group.Worded (readItems span alternatives items) := by
  induction items generalizing span alternatives with
  | nil =>
    rw [readItems]
    split
    · exact (steady_fault _ _).keepsGroups
    · exact keepsGroups_anyOf _
  | cons item items ih =>
    cases item with
    | error f => exact (steady_fault _ _).keepsGroups
    | ok t =>
      rw [readItems]
      exact (keptByForms_worded.read t (h t List.mem_cons_self) false).bind fun _ =>
        ih (fun u hu => h u (List.mem_cons_of_mem _ hu)) _ _

end Reader

namespace Tree

variable {t : Tree} {document : String}

theorem allGroups_worded_of_ofString (h : ofString document = .ok t) :
    t.AllGroups Group.Worded := by
  rw [ofString, Tree.read] at h
  cases hread : (Reader.readItems .origin [] (Lexer.ofSource (.ofChars document.toList)).items).run
      ⟨.empty, 0⟩ with
  | error f => rw [hread] at h; cases h
  | ok p =>
    rw [hread] at h
    cases h
    exact Reader.keepsGroups_readItems (fun _ => Lexer.worded_of_mem_items) _ _ hread
      allGroups_empty

/-- The names of groups in the expression of a document are words. -/
theorem rootExpr_worded (h : ofString document = .ok t) {e : Expr NodeId}
    (he : t.rootExpr = .ok e) : e.AllGroups Group.Worded := by
  rw [rootExpr] at he
  split at he
  · cases he
  · exact (allGroups_worded_of_ofString h).expr he

end Tree

end PositionAutomata
