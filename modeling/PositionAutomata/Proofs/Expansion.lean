import PositionAutomata.Proofs.Construction.Augmenting
import PositionAutomata.Proofs.Tree.Invariants

/-
  Trees with their repetitions written out.

  What is written out unfolds to `Expr.unrolled`, which matches alike and counts
  nothing, so writing it out once more changes no shape. That no node is counted,
  apart from repetitions of an empty leaf (`Tree.WrittenOut`), is kept by each
  node that is added and so holds of the whole tree (`keeps_expand`), whether
  its root reaches the node or not.
-/

namespace PositionAutomata

theorem Quantifier.isCounted_eq_false_iff {q : Quantifier} :
    q.isCounted = false ↔ q.max = 1 ∨ (q.max ≤ 0 ∧ q.min ≤ 1) := by
  rw [isCounted]
  split
  next hu =>
    have hmax : q.max ≤ 0 := by simpa [isUnbounded] using hu
    rw [decide_eq_false_iff_not]
    omega
  next hu =>
    have hmax : ¬ q.max ≤ 0 := by simpa [isUnbounded] using hu
    rw [decide_eq_false_iff_not]
    omega

namespace Tree

variable {t : Tree} {e : Expr NodeId}

/-- No repetition has to be written out any more, apart from those of an empty leaf. -/
def WrittenOut (t : Tree) : Prop :=
  ∀ id c q, t.get? id = some (.repetition c q) →
    t.get? c = some (.leaf .empty) ∨ q.isCounted = false

theorem writtenOut_empty : empty.WrittenOut := fun _ _ _ h => absurd h (by simp [empty, get?])

theorem WrittenOut.place (h : t.WrittenOut) {n : Node}
    (hn : ∀ c q, n = .repetition c q → t.get? c = some (.leaf .empty) ∨ q.isCounted = false) :
    (place n t).2.WrittenOut := by
  intro id c q hget
  rw [get?_place] at hget
  have hold : t.get? c = some (.leaf .empty) ∨ q.isCounted = false := by
    split at hget
    next => exact hn c q (Option.some.inj hget)
    next => exact h id c q hget
  -- An empty leaf that was there is not the node that was added.
  refine hold.imp_left fun hc => ?_
  have hne : c ≠ t.size := Nat.ne_of_lt (Array.getElem?_eq_some_iff.mp hc).1
  rw [get?_place, if_neg hne, hc]

theorem writtenOut_build_expand {u : Tree} (h : build e.expand = .ok u) : u.WrittenOut := by
  refine (keeps_expand (p := WrittenOut) (fun n t hn ht => ?_) (fun q t ht => ?_) e).build
    writtenOut_empty (fun t id ht => ht) h
  · refine ht.place fun c q heq => .inr ?_
    rw [heq] at hn
    exact hn
  · have hleaf : (leaf .empty t).2.WrittenOut :=
      ht.place fun c q heq => absurd heq (by simp)
    refine hleaf.place fun c q' heq => .inl ?_
    cases heq
    rw [leaf, place_fst, get?_place, if_pos rfl]

/-- What is left of an expression that is written out. -/
theorem exists_expandRepetitions (h : t.rootExpr = .ok e) (hv : e.Valid) :
    ∃ u f, t.expandRepetitions = .ok u ∧ u.rootExpr = .ok f ∧ f.shape = e.unrolled ∧
      u.WrittenOut := by
  obtain ⟨u, f, hbuild, hf, hshape, _⟩ := Config.exists_build (Expr.adds_expand hv)
  refine ⟨u, f, ?_, hf, hshape, writtenOut_build_expand hbuild⟩
  rw [expandRepetitions, h]
  exact hbuild

/-- Where no bounded repetition has its minimum above its maximum, a tree can be written out. The
result matches what the tree matches, from the same offsets to the same offsets. Its repetitions are
those of an empty leaf, those of at most one iteration, and those without a maximum of at most one
required iteration. Written out again it unfolds as before. -/
theorem expandRepetitions_matches_and_counts_nothing (h : t.rootExpr = .ok e) (hv : e.Valid) :
    ∃ u f, t.expandRepetitions = .ok u ∧ u.rootExpr = .ok f ∧
      (∀ text i j, f.Matches text i j ↔ e.Matches text i j) ∧
      (∀ id c q, u.get? id = some (.repetition c q) →
        u.get? c = some (.leaf .empty) ∨ q.max = 1 ∨ (q.max ≤ 0 ∧ q.min ≤ 1)) ∧
      ∃ v g, u.expandRepetitions = .ok v ∧ v.rootExpr = .ok g ∧ g.shape = f.shape := by
  obtain ⟨u, f, hu, hf, hshape, hout⟩ := exists_expandRepetitions h hv
  have hunrolled : f.Unrolled := by
    have hall := Expr.unrolled_unrolled hv
    rw [← hshape] at hall
    exact Expr.unrolled_map.mp hall
  obtain ⟨v, g, hexp, hg, hagain, _⟩ := exists_expandRepetitions hf hunrolled.valid
  refine ⟨u, f, hu, hf, fun text i j => ?_, fun id c q hget => ?_, v, g, hexp, hg, ?_⟩
  · calc f.Matches text i j
        ↔ f.shape.Matches text i j := Expr.matches_shape.symm
      _ ↔ e.unrolled.Matches text i j := by rw [hshape]
      _ ↔ e.Matches text i j := Expr.matches_unrolled hv
  · exact (hout id c q hget).imp_right Quantifier.isCounted_eq_false_iff.mp
  · exact hagain.trans hunrolled.unrolled_eq

/-- At a line start, two or three letters `a` as few as possible, all this up to twice; or else an
empty word two to four times. After it once more the letters `a`, and then two or more letters. -/
def nestedRepetitions : Tree where
  nodes := #[.leaf (.codepoint 0x61), .repetition 0 ⟨2, 3, true⟩, .leaf (.codepoint lineStart),
    .concat 2 1, .repetition 3 ⟨-1, 2, false⟩, .leaf .empty, .repetition 5 ⟨2, 4, false⟩,
    .alternation 4 6, .concat 7 1, .repetition 0 ⟨2, -1, false⟩, .concat 8 9]
  root := some 10

/-- What the root of `nestedRepetitions` unfolds to. -/
def nestedRepetitionsExpr : Expr NodeId :=
  .concat 10
    (.concat 8
      (.alternation 7
        (.repetition 4 ⟨-1, 2, false⟩ (.concat 3 (.leaf 2 (.codepoint lineStart))
          (.repetition 1 ⟨2, 3, true⟩ (.leaf 0 (.codepoint 0x61)))))
        (.repetition 6 ⟨2, 4, false⟩ (.leaf 5 .empty)))
      (.repetition 1 ⟨2, 3, true⟩ (.leaf 0 (.codepoint 0x61))))
    (.repetition 9 ⟨2, -1, false⟩ (.leaf 0 (.codepoint 0x61)))

theorem expandRepetitions_nestedRepetitions :
    nestedRepetitions.rootExpr = .ok nestedRepetitionsExpr ∧ nestedRepetitionsExpr.Valid ∧
      ∃ u f, nestedRepetitions.expandRepetitions = .ok u ∧ u.rootExpr = .ok f ∧
        (∀ text i j, f.Matches text i j ↔ nestedRepetitionsExpr.Matches text i j) ∧
        (∀ id c q, u.get? id = some (.repetition c q) →
          u.get? c = some (.leaf .empty) ∨ q.max = 1 ∨ (q.max ≤ 0 ∧ q.min ≤ 1)) ∧
        ∃ v g, u.expandRepetitions = .ok v ∧ v.rootExpr = .ok g ∧ g.shape = f.shape := by
  have hroot : nestedRepetitions.rootExpr = .ok nestedRepetitionsExpr := by rfl
  have hvalid : nestedRepetitionsExpr.Valid := by decide
  exact ⟨hroot, hvalid, expandRepetitions_matches_and_counts_nothing hroot hvalid⟩

end Tree

end PositionAutomata
