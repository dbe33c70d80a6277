import PositionAutomata.Proofs.Construction.Augmenting
import PositionAutomata.Proofs.Expr.Parses
import PositionAutomata.Proofs.Tree.Renumbering

/-
  Automata of trees that unfold alike.

  The tree that is analysed is a copy, and a copy shows the numbers of the nodes
  that it was made of in failures alone (`Config.mapError_augment`). Trees whose
  roots unfold to expressions of one shape are therefore copied to the same tree,
  however their nodes are numbered and shared and whatever else stands in them,
  and have the same automaton or none.
-/

namespace PositionAutomata

theorem mapError_eq_ok {ε ε' α : Type} {r : ε → ε'} {x : Except ε α} {a : α} :
    x.mapError r = .ok a ↔ x = .ok a := by
  cases x with
  | ok b =>
    show (.ok b : Except ε' α) = .ok a ↔ _
    simp
  | error e =>
    show (.error (r e) : Except ε' α) = .ok a ↔ _
    simp

namespace Expr

variable {α β γ : Type}

theorem map_map (g : β → γ) (f : α → β) (e : Expr α) : (e.map f).map g = e.map (g ∘ f) := by
  induction e with
  | leaf a l => rfl
  | concat a l r ihl ihr => simp only [map, ihl, ihr, Function.comp]
  | alternation a l r ihl ihr => simp only [map, ihl, ihr, Function.comp]
  | repetition a q e ih => simp only [map, ih, Function.comp]
  | capture a g e ih => simp only [map, ih, Function.comp]

/-- Expressions of one shape are the same one when all tags are. -/
theorem map_const_of_shape {e : Expr α} {f : Expr β} (h : e.shape = f.shape) (c : γ) :
    e.map (fun _ => c) = f.map fun _ => c := by
  have hmap := congrArg (map fun _ => c) h
  rwa [shape, shape, map_map, map_map] at hmap

end Expr

namespace Config

variable {c : Config} {g : NodeId → NodeId} {t u : Tree} {e f : Expr NodeId}

theorem copy_map (e : Expr NodeId) : c.copy (e.map g) = Tree.renumber g (c.copy e) := by
  rw [copy, copy]
  split
  · exact Expr.expand_map e
  · exact Expr.copy_map e

theorem terminate_map (e : Expr NodeId) (symbol : Symbol) :
    c.terminate (e.map g) symbol = Tree.renumber g (c.terminate e symbol) := by
  rw [terminate, terminate, copy_map, Tree.renumber_bind]
  rfl

/-- But for the numbers in failures, the copy of a tree is that of the renumbered expression. -/
theorem mapError_augment (he : t.rootExpr = .ok e) :
    (c.augment t).mapError (Failure.renumber g) =
      if c.lexer then
        if (e.map g).isAlternation then
          Tree.build do
            Tree.anyOf (← (e.map g).alternatives.zipIdx.mapM fun (x, i) => c.terminate x i)
        else .error .rootNotAlternation
      else Tree.build (c.terminate (e.map g) 0) := by
  rw [augment_eq he, Expr.isAlternation_map]
  split
  · split
    · have hterminate : (fun x : Expr NodeId × Nat => c.terminate x.1 x.2) ∘
          Prod.map (Expr.map g) id = fun x => Tree.renumber g (c.terminate x.1 x.2) :=
        funext fun x => terminate_map x.1 x.2
      rw [Expr.alternatives_map, List.zipIdx_map, List.mapM_map, hterminate, ← Tree.build_renumber,
        Tree.renumber_bind, Tree.renumber_mapM]
      rfl
    · rfl
  · rw [terminate_map, Tree.build_renumber]

/-- Trees that unfold to one shape have the same copy. -/
theorem augment_eq_ok_iff (ht : t.rootExpr = .ok e) (hu : u.rootExpr = .ok f)
    (hshape : e.shape = f.shape) {v : Tree} : c.augment t = .ok v ↔ c.augment u = .ok v := by
  have haugment : (c.augment t).mapError (Failure.renumber fun _ => 0) =
      (c.augment u).mapError (Failure.renumber fun _ => 0) := by
    rw [mapError_augment ht, mapError_augment hu, Expr.map_const_of_shape hshape]
  rw [← mapError_eq_ok, haugment, mapError_eq_ok]

end Config

namespace Automaton

variable {c : Config} {t u : Tree} {e f : Expr NodeId}

theorem ofTree_eq_ok_iff_augment {d : Automaton} :
    ofTree t c = .ok d ↔
      ∃ u f, c.augment t = .ok u ∧ u.rootExpr = .ok f ∧
        d = ofAnalysis (.ofExpr u f c.lazy c.captures) c := by
  constructor
  · intro h
    obtain ⟨a, ha, hd⟩ := bind_eq_ok.mp h
    obtain ⟨u, hu, ha⟩ := bind_eq_ok.mp ha
    obtain ⟨f, hf, ha⟩ := bind_eq_ok.mp ha
    cases ha
    cases hd
    exact ⟨u, f, hu, hf, rfl⟩
  · intro h
    obtain ⟨u, f, hu, hf, rfl⟩ := h
    exact ofTree_eq hu hf

theorem ofTree_eq_ok_iff_of_shape (ht : t.rootExpr = .ok e) (hu : u.rootExpr = .ok f)
    (hshape : e.shape = f.shape) (d : Automaton) : ofTree t c = .ok d ↔ ofTree u c = .ok d := by
  simp only [ofTree_eq_ok_iff_augment, Config.augment_eq_ok_iff ht hu hshape]

/-- A lexer is built from alternations alone. -/
theorem ofTree_of_not_alternation (he : t.rootExpr = .ok e) (hl : c.lexer = true)
    (ha : e.isAlternation = false) : ofTree t c = .error .rootNotAlternation := by
  have haug : c.augment t = .error .rootNotAlternation := by
    rw [Config.augment_eq he, if_pos hl, ha]
    rfl
  rw [ofTree, Config.analyze, haug]
  rfl

/-- The copy without sharing holds an expression of the shape of what was copied. -/
theorem exists_rootExpr_of_deepCopy {v : Tree} (h : t.deepCopy = .ok v) :
    ∃ e f, t.rootExpr = .ok e ∧ e.Valid ∧ v.rootExpr = .ok f ∧ f.shape = e.shape := by
  obtain ⟨e, he, hbuild⟩ := bind_eq_ok.mp h
  have hv : e.Valid := Expr.valid_of_build (Expr.hasFault_copy e) hbuild
  obtain ⟨u, f, hu, hf, hshape, _⟩ := Config.exists_build (Expr.adds_copy hv)
  obtain rfl : u = v := Except.ok.inj (hu.symm.trans hbuild)
  exact ⟨e, f, he, hv, hf, hshape⟩

theorem ofTree_deepCopy {v : Tree} (h : t.deepCopy = .ok v) : ofTree v c = ofTree t c := by
  obtain ⟨e, f, he, hv, hf, hshape⟩ := exists_rootExpr_of_deepCopy h
  by_cases hlexer : c.lexer = true → e.isAlternation = true
  · obtain ⟨_, _, _, hd⟩ := ofTree_of_valid he hv hlexer
    rw [hd, ofTree_eq_ok_iff_of_shape hf he hshape, hd]
  · -- Without an alternation at the root, neither is a lexer.
    obtain ⟨hl, ha⟩ := Classical.not_imp.mp hlexer
    have ha : e.isAlternation = false := Bool.eq_false_iff.mpr ha
    have hf' : f.isAlternation = false := by
      rw [← Expr.isAlternation_map (fun _ => ()), ← Expr.shape, hshape, Expr.shape,
        Expr.isAlternation_map, ha]
    rw [ofTree_of_not_alternation he hl ha, ofTree_of_not_alternation hf hl hf']

/-- Two trees whose roots unfold to one shape have the same automaton or none, whatever the options
are; in particular a tree and its copy without sharing, for which not even the failure differs. -/
theorem ofTree_determined_by_shape {t u : Tree} {e f : Expr NodeId} (ht : t.rootExpr = .ok e)
    (hu : u.rootExpr = .ok f) (hshape : e.shape = f.shape) (c : Config) :
    (∀ d, ofTree t c = .ok d ↔ ofTree u c = .ok d) ∧
      ∀ v, t.deepCopy = .ok v → ofTree v c = ofTree t c :=
  ⟨ofTree_eq_ok_iff_of_shape ht hu hshape, fun _ => ofTree_deepCopy⟩

/-- One or two letters `a`, as few as possible, and then another `a`; or just one or two. All are
the same leaf, and a repetition that cannot be written out stands apart. -/
def sharedLetters : Tree where
  nodes := #[.leaf (.codepoint 0x62), .repetition 0 ⟨3, 2, false⟩, .leaf (.codepoint 0x61),
    .repetition 2 ⟨1, 2, true⟩, .concat 3 2, .alternation 4 3]
  root := some 5

/-- The copy of `sharedLetters`. -/
def unsharedLetters : Tree where
  nodes := #[.leaf (.codepoint 0x61), .repetition 0 ⟨1, 2, true⟩, .leaf (.codepoint 0x61),
    .concat 1 2, .leaf (.codepoint 0x61), .repetition 4 ⟨1, 2, true⟩, .alternation 3 5]
  root := some 6

theorem ofTree_unsharedLetters :
    sharedLetters.deepCopy = .ok unsharedLetters ∧
      (∃ d, ofTree sharedLetters { lexer := true } = .ok d) ∧
      (∀ d, ofTree sharedLetters { lexer := true } = .ok d ↔
        ofTree unsharedLetters { lexer := true } = .ok d) ∧
      ∀ v, sharedLetters.deepCopy = .ok v →
        ofTree v { lexer := true } = ofTree sharedLetters { lexer := true } := by
  have hcopy : sharedLetters.deepCopy = .ok unsharedLetters := by rfl
  obtain ⟨e, f, he, hv, hf, hshape⟩ := exists_rootExpr_of_deepCopy hcopy
  have hlexer : e.isAlternation = true := by
    cases he
    rfl
  obtain ⟨_, _, _, hd⟩ := ofTree_of_valid he hv fun _ => hlexer
  exact ⟨hcopy, ⟨_, hd⟩, ofTree_determined_by_shape he hf hshape.symm { lexer := true }⟩

end Automaton

end PositionAutomata
