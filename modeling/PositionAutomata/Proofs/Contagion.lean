import Mathlib
import PositionAutomata.Proofs.Construction.Continuations
import PositionAutomata.Proofs.PositionPaths
import PositionAutomata.Proofs.Trimming

/-
  States that differ in their lazy positions.

  States with the same positions are kept apart if laziness has spread to others
  of them, and trimming looks at the lazy positions of each. It makes no
  difference for what is matched: two texts that lead to such states, and that
  the trimmed automaton still reads, go on to be accepted alike.
-/

namespace PositionAutomata

namespace Analysis

variable {a : Analysis} {c : Config} {u : List Char} {q : StateId} {k : Key}

/-- The key of the state to which a text leads is entered there, however the text goes on. -/
theorem passes_of_follow? (hb : a.Bounded) (hl : a.Lettered)
    (h : a.synthesized.follow? a.synthesized.start (u.map Char.toNat) = some q)
    (hk : a.keys[q]? = some k) (w : List Char) : a.Passes (u ++ w) u.length k := by
  have hentered : (a.synthesized.filterTransitions fun _ _ => true).Reached (u ++ w) u.length q ↔
      ∃ x, a.keys[q]? = some x ∧ a.Passes (u ++ w) u.length x :=
    reached_iff hb hl fun _ _ => iff_of_true rfl trivial
  have hreached := Automaton.reached_of_follow? (wellFormed_synthesized hb) w h
  rw [← Automaton.filterTransitions_true a.synthesized, hentered] at hreached
  obtain ⟨x, hx, hpass⟩ := hreached
  rwa [Option.some.inj (hx.symm.trans hk)] at hpass

/-- A text that the built automaton reads is cut nowhere before its end. -/
theorem not_cut_of_follow? (hb : a.Bounded) (hl : a.Lettered) (ha : a.AnchorFree)
    (h : ((Automaton.ofAnalysis a c).follow? (Automaton.ofAnalysis a c).start
      (u.map Char.toNat)).isSome = true) (w : List Char) (htrim : c.trim = true)
    (hlazy : c.lazy = true) : ∀ m < u.length, ¬ a.Cut (u ++ w) m := by
  obtain ⟨q, hq⟩ := Option.isSome_iff_exists.mp h
  have hreached := Automaton.reached_of_follow? (wellFormed_ofAnalysis hb c) w hq
  obtain ⟨k, _, hent, _⟩ := exists_enters_of_reached hb hl hreached
  exact ((enters_keeps_iff hb hl ha).mp hent).2 htrim hlazy

end Analysis

namespace Automaton

/-- Two texts that lead the synthesized automaton of an anchor-free tree to states with the same
positions, and that the built automaton reads, are accepted alike however they go on. -/
theorem run_append_eq_of_same_positions {t : Tree} {c : Config} {e : Expr NodeId} {a : Analysis}
    {d : Automaton} {u v : List Char} {p q : StateId} {k l : Key} (hroot : t.rootExpr = .ok e)
    (hanchor : e.AllLeaves Leaf.IsAnchorFree) (ha : c.analyze t = .ok a) (hd : ofTree t c = .ok d)
    (hu : a.synthesized.follow? a.synthesized.start (u.map Char.toNat) = some p)
    (hv : a.synthesized.follow? a.synthesized.start (v.map Char.toNat) = some q)
    (hk : a.keys[p]? = some k) (hl : a.keys[q]? = some l) (hkl : k.positions = l.positions)
    (hu' : (d.follow? d.start (u.map Char.toNat)).isSome = true)
    (hv' : (d.follow? d.start (v.map Char.toNat)).isSome = true) (w : List Char) :
    d.run (u ++ w) = d.run (v ++ w) := by
  obtain rfl := Except.ok.inj (hd.symm.trans (ofTree_of_analyze ha))
  have hletters := Analysis.lettered_of_analyze hroot ha
    (hanchor.mono fun _ => Leaf.IsAnchorFree.isSharp)
  have hfree := Analysis.anchorFree_of_analyze hroot ha hanchor
  have hb := Analysis.bounded_of_analyze ha
  have hpass := Analysis.passes_of_follow? hb hletters hu hk w
  have hpass' := Analysis.passes_of_follow? hb hletters hv hl w
  have haligned : a.Aligned (u ++ w) u.length (v ++ w) v.length := by
    refine ⟨fun x => ?_, by rw [List.drop_left, List.drop_left]⟩
    rw [← hpass.mem_positions_iff hletters hfree, ← hpass'.mem_positions_iff hletters hfree, hkl]
  exact haligned.run_eq hb hletters hfree (by simp) (by simp)
    (Analysis.not_cut_of_follow? hb hletters hfree hu' w)
    (Analysis.not_cut_of_follow? hb hletters hfree hv' w)

set_option maxRecDepth 4000 in
/-- After `a` and after `b` the position of `c` comes next, and it is lazy only after `a`. -/
theorem run_append_eq_of_lazyLead :
    ∃ e a d p q k l, Analysis.lazyLead.rootExpr = .ok e ∧ e.AllLeaves Leaf.IsAnchorFree ∧
      Config.analyze {} Analysis.lazyLead = .ok a ∧ ofTree Analysis.lazyLead = .ok d ∧
      a.synthesized.follow? a.synthesized.start (['a'].map Char.toNat) = some p ∧
      a.synthesized.follow? a.synthesized.start (['b'].map Char.toNat) = some q ∧
      a.keys[p]? = some k ∧ a.keys[q]? = some l ∧ k.positions = l.positions ∧ k.lazy ≠ l.lazy ∧
      (d.follow? d.start (['a'].map Char.toNat)).isSome = true ∧
      (d.follow? d.start (['b'].map Char.toNat)).isSome = true ∧
      ∀ w, d.run (['a'] ++ w) = d.run (['b'] ++ w) := by
  obtain ⟨e, hroot, hanchor⟩ :
      ∃ e, Analysis.lazyLead.rootExpr = .ok e ∧ e.AllLeaves Leaf.IsAnchorFree :=
    ⟨_, by rfl, by decide⟩
  have hstates : (Config.analyze {} Analysis.lazyLead).map (fun a =>
      (a.synthesized.follow? a.synthesized.start (['a'].map Char.toNat),
        a.synthesized.follow? a.synthesized.start (['b'].map Char.toNat),
        a.keys[1]?, a.keys[2]?)) =
      .ok (some 1, some 2, some ⟨.singleton 3, .singleton 3⟩, some ⟨.singleton 3, ∅⟩) := by cbv
  have hread : (Config.analyze {} Analysis.lazyLead).map (fun a =>
      (((ofAnalysis a {}).follow? 0 (['a'].map Char.toNat)).isSome,
        ((ofAnalysis a {}).follow? 0 (['b'].map Char.toNat)).isSome)) = .ok (true, true) := by cbv
  cases ha : Config.analyze {} Analysis.lazyLead with
  | error _ =>
    rw [ha] at hread
    exact absurd hread (by simp [Except.map])
  | ok a =>
    rw [ha] at hstates hread
    have hstates := Except.ok.inj hstates
    have hread := Except.ok.inj hread
    simp only [Prod.mk.injEq] at hstates hread
    obtain ⟨hu, hv, hk, hl⟩ := hstates
    have hd := ofTree_of_analyze ha
    exact ⟨e, a, _, 1, 2, _, _, hroot, hanchor, rfl, hd, hu, hv, hk, hl, rfl, by decide, hread.1,
      hread.2,
      run_append_eq_of_same_positions hroot hanchor ha hd hu hv hk hl rfl hread.1 hread.2⟩

end Automaton

end PositionAutomata
