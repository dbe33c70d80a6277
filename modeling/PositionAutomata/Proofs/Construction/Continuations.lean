import PositionAutomata.Proofs.Automaton.Words
import PositionAutomata.Proofs.Construction.States
import PositionAutomata.Proofs.Construction.Trimming

/-
  How texts go on.

  Two places in texts are aligned if the same positions are awaited and the same
  characters are left (`Analysis.Aligned`). Without anchors what is awaited next
  depends on nothing else, so aligned places stay aligned while both texts are
  read (`Aligned.add`), and the texts are cut at the same places behind them
  (`Aligned.cut_iff`). If neither is cut before, the built automaton accepts both
  alike (`Aligned.run_eq`). Lazy positions do not come into it, although trimming
  reads them from the keys: those that count are inherently lazy, and a key has
  all of these among its positions.
-/

namespace PositionAutomata

namespace Analysis

variable {a : Analysis} {c : Config} {text text' : List Char} {i j : Nat}

/-- After `i` characters of one text the same is awaited as after `j` characters of another, and
they go on alike. -/
structure Aligned (a : Analysis) (text : List Char) (i : Nat) (text' : List Char) (j : Nat) :
    Prop where
  awaits : ∀ p, a.Awaits text i p ↔ a.Awaits text' j p
  rest : text.drop i = text'.drop j

/-- Without anchors what is awaited follows a position that reads the character before. -/
theorem awaits_succ_iff (ha : a.AnchorFree) {q : Position} :
    a.Awaits text (i + 1) q ↔ ∃ p o x, a.Awaits text i p ∧ a.positions.get? p = some o ∧
      text[i]? = some x ∧ o.leaf.Contains x ∧ q ∈ a.follow.after p := by
  constructor
  · intro h
    generalize hj : i + 1 = j at h
    cases h with
    | first _ => exact absurd hj (Nat.succ_ne_zero i)
    | next hp ho hread hq =>
      obtain ⟨rfl, x, hx, hox⟩ := (Leaf.reads_iff (ha _ _ ho)).mp hread
      obtain rfl := Nat.succ.inj hj
      exact ⟨_, _, x, hp, ho, hx, hox, hq⟩
  · intro h
    obtain ⟨p, o, x, hp, ho, hx, hox, hq⟩ := h
    exact .next hp ho ((Leaf.reads_iff (ha p o ho)).mpr ⟨rfl, x, hx, hox⟩) hq

namespace Aligned

theorem symm (h : a.Aligned text i text' j) : a.Aligned text' j text i :=
  ⟨fun p => (h.awaits p).symm, h.rest.symm⟩

theorem getElem? (h : a.Aligned text i text' j) : text[i]? = text'[j]? := by
  have hhead := congrArg List.head? h.rest
  rwa [List.head?_drop, List.head?_drop] at hhead

theorem succ (ha : a.AnchorFree) (h : a.Aligned text i text' j) :
    a.Aligned text (i + 1) text' (j + 1) where
  awaits q := by
    rw [awaits_succ_iff ha, awaits_succ_iff ha]
    simp only [h.awaits, h.getElem?]
  rest := by rw [← List.drop_drop, ← List.drop_drop, h.rest]

/-- Aligned places stay aligned while both texts are read. -/
theorem add (ha : a.AnchorFree) (h : a.Aligned text i text' j) (n : Nat) :
    a.Aligned text (i + n) text' (j + n) := by
  induction n with
  | zero => exact h
  | succ n ih => exact ih.succ ha

theorem cut_iff (ha : a.AnchorFree) (h : a.Aligned text i text' j) :
    a.Cut text i ↔ a.Cut text' j := by
  have hnext := h.succ ha
  simp only [Cut, h.awaits, hnext.awaits]

theorem length_eq (h : a.Aligned text i text' j) : text.length - i = text'.length - j := by
  have hlen := congrArg List.length h.rest
  rwa [List.length_drop, List.length_drop] at hlen

/-- A text is cut nowhere if it is cut neither before the aligned place nor, like the other text,
behind it. -/
theorem not_cut (ha : a.AnchorFree) (h : a.Aligned text i text' j) (hj : j ≤ text'.length)
    (hbefore : ∀ m < i, ¬ a.Cut text m) (huncut : ∀ m < text'.length, ¬ a.Cut text' m) :
    ∀ m < text.length, ¬ a.Cut text m := by
  intro m hm
  have hlen := h.length_eq
  rcases Nat.lt_or_ge m i with hlt | hle
  · exact hbefore m hlt
  · obtain ⟨n, rfl⟩ := Nat.exists_eq_add_of_le hle
    rw [(h.add ha n).cut_iff ha]
    apply huncut
    omega

/-- Without trimming nothing but the rest of the texts and what is awaited counts. -/
theorem run_untrimmed_eq (hb : a.Bounded) (hl : a.Lettered) (ha : a.AnchorFree)
    (h : a.Aligned text i text' j) (hi : i ≤ text.length) (hj : j ≤ text'.length) :
    (Automaton.ofAnalysis a { c with trim := false }).run text =
      (Automaton.ofAnalysis a { c with trim := false }).run text' := by
  have hend := h.add ha (text.length - i)
  rw [Nat.add_sub_cancel' hi, h.length_eq, Nat.add_sub_cancel' hj] at hend
  apply Option.ext
  intro n
  rw [run_eq_some_iff_awaits hb hl (keeps_of_untrimmed a c),
    run_eq_some_iff_awaits hb hl (keeps_of_untrimmed a c)]
  simp only [hend.awaits]

/-- Texts that are not cut before aligned places are accepted alike. -/
theorem run_eq (hb : a.Bounded) (hl : a.Lettered) (ha : a.AnchorFree)
    (h : a.Aligned text i text' j) (hi : i ≤ text.length) (hj : j ≤ text'.length)
    (hbefore : c.trim = true → c.lazy = true → ∀ m < i, ¬ a.Cut text m)
    (hbefore' : c.trim = true → c.lazy = true → ∀ m < j, ¬ a.Cut text' m) :
    (Automaton.ofAnalysis a c).run text = (Automaton.ofAnalysis a c).run text' := by
  have huncut : (c.trim = true → c.lazy = true → ∀ m < text.length, ¬ a.Cut text m) ↔
      (c.trim = true → c.lazy = true → ∀ m < text'.length, ¬ a.Cut text' m) := by
    apply forall_congr'
    intro htrim
    apply forall_congr'
    intro hlazy
    exact ⟨h.symm.not_cut ha hi (hbefore' htrim hlazy), h.not_cut ha hj (hbefore htrim hlazy)⟩
  apply Option.ext
  intro n
  calc (Automaton.ofAnalysis a c).run text = some n
    _ ↔ (Automaton.ofAnalysis a { c with trim := false }).run text = some n ∧
        (c.trim = true → c.lazy = true → ∀ m < text.length, ¬ a.Cut text m) :=
      run_eq_some_iff_not_cut hb hl ha
    _ ↔ (Automaton.ofAnalysis a { c with trim := false }).run text' = some n ∧
        (c.trim = true → c.lazy = true → ∀ m < text'.length, ¬ a.Cut text' m) := by
      rw [h.run_untrimmed_eq hb hl ha hi hj, huncut]
    _ ↔ (Automaton.ofAnalysis a c).run text' = some n := (run_eq_some_iff_not_cut hb hl ha).symm

end Aligned

end Analysis

end PositionAutomata
