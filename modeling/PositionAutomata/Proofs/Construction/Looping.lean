import PositionAutomata.Proofs.Analysis.Laziness
import PositionAutomata.Proofs.Construction.Trimming
import PositionAutomata.Proofs.Expr.Restarts

/-
  Where a lazy loop is cut.

  The analysed expression begins with a lazy repetition, and no other repetition
  in it is lazy. Its lazy positions are those of the repeated part
  (`parent?_loop_iff`), and a first position of the repetition is awaited exactly
  where the repetition begins again (`exists_awaits_first_iff`). Where what was
  read is accepted, a text is therefore cut if after the next character the
  repetition would begin again (`cut_loop_iff`).
-/

namespace PositionAutomata

namespace Analysis

variable {t : Tree} {root a b r : NodeId} {q : Quantifier} {x f k g : Expr NodeId}
  {captures : Bool} {text : List Char} {i : Nat} {p : Position}

section

variable (hg : g = .concat a (.concat b (.repetition r q x) f) k) (hroot : t.expr root = .ok g)
  (hnd : (g.leaves.map Prod.fst).Nodup) (hb : ∀ y ∈ g.leaves, y.1 < t.size)

include hg hnd

theorem linear_loop : ((Expr.concat b (.repetition r q x) f).leaves ++ k.leaves).Nodup ∧
    ((Expr.repetition r q x).leaves ++ f.leaves).Nodup := by
  have h : g.leaves.Nodup := hnd.of_map
  rw [hg, Expr.leaves_concat] at h
  have h' := Expr.Linear.left h
  rw [Expr.Linear, Expr.leaves_concat] at h'
  exact ⟨h, h'⟩

/-- Up to a leaf of the loop a word is one of the loop. -/
theorem spells_loop_iff (hu : g.Unrolled) {u : List (NodeId × Leaf)} {y : NodeId × Leaf}
    (hy : y ∈ x.leaves) :
    (∃ v, g.Spells (u ++ y :: v)) ↔ ∃ v, (Expr.repetition r q x).Spells (u ++ y :: v) := by
  obtain ⟨hlin, hlin'⟩ := linear_loop hg hnd
  rw [hg] at hu ⊢
  rw [Expr.spells_concat_left hlin hu.2 (by simp [hy]),
    Expr.spells_concat_left hlin' hu.1.2 (by simpa using hy)]

/-- Before a leaf of the loop stands a leaf of the loop. -/
theorem mem_loop_of_follows {y z : NodeId × Leaf} (hz : z ∈ x.leaves) (h : g.Follows y z) :
    y ∈ x.leaves := by
  obtain ⟨hlin, hlin'⟩ := linear_loop hg hnd
  rw [hg] at h
  have h := Expr.follows_concat_left hlin (by simp [hz]) h
  have h := Expr.follows_concat_left hlin' (by simpa using hz) h
  exact (Expr.mem_leaves_of_follows h).1

include hb

/-- The lazy positions are those of the loop. -/
theorem parent?_loop_iff (hq : q.lazy = true) (hx : x.Greedy) (hf : f.Greedy) (hk : k.Greedy)
    {s : NodeId} : (ofExpr t g true captures).laziness.parent? p = some s ↔
      s = r ∧ ∃ y ∈ x.leaves, g.At p y := by
  have hlazy : g.lazyLeaves = x.leaves.map fun y => (y.1, r) := by
    rw [hg, Expr.lazyLeaves]
    simp [Expr.withLazyParents, hq, hx.leaves_withLazyParents, hf.leaves_withLazyParents,
      hk.leaves_withLazyParents, List.filterMap_append, List.filterMap_map]
  show (Laziness.ofExpr (.ofExpr t.size g) g).parent? p = some s ↔ _
  rw [Laziness.parent?_eq_some_iff hnd hb, hlazy]
  simp only [List.mem_map, Prod.mk.injEq]
  constructor
  · intro h
    obtain ⟨y, hy, z, hz, hzy, rfl⟩ := h
    have hxg : x.leaves ⊆ g.leaves := fun z hz => by simp [hg, hz]
    obtain rfl := List.inj_on_of_nodup_map hnd (hxg hz) hy.mem hzy
    exact ⟨rfl, z, hz, hy⟩
  · intro h
    obtain ⟨rfl, y, hy, hp⟩ := h
    exact ⟨y, hp, y, hy, rfl, rfl⟩

include hroot

/-- A leaf is at a first position of the loop if the loop may begin with it. -/
theorem mem_first_loop_iff {lazy : Bool} :
    p ∈ ((ofExpr t g lazy captures).endsOf r).first ↔ ∃ y, x.First y ∧ g.At p y :=
  mem_first_of_mem_iff (x := .repetition r q x) hroot hnd hb (by simp [hg])

/-- A first position of the loop is awaited where the loop begins again. -/
theorem exists_awaits_first_iff {lazy : Bool} (hu : g.Unrolled) :
    (∃ p ∈ ((ofExpr t g lazy captures).endsOf r).first,
        (ofExpr t g lazy captures).Awaits text i p) ↔
      ∃ u, (Expr.repetition r q x).BeginsAgain u ∧ Consumes text u 0 i := by
  have hloop : (Expr.repetition r q x).Unrolled := by
    rw [hg] at hu
    exact hu.1.1
  constructor
  · intro h
    obtain ⟨p, hp, h⟩ := h
    obtain ⟨y, hy, hpy⟩ := (mem_first_loop_iff hg hroot hnd hb).mp hp
    have hyx := Expr.mem_leaves_of_first hy
    -- The leaf begins a word, so a word goes on after it.
    obtain ⟨v, hv⟩ := (spells_loop_iff hg hnd hu (u := []) hyx).mpr
      (Expr.exists_spells_cons hloop.valid hy)
    obtain ⟨u, hc, hs⟩ := spells_of_awaits hroot hnd hb hu h hpy (Expr.continues_of_spells hv)
    exact ⟨u, ⟨y, hy, (spells_loop_iff hg hnd hu hyx).mp ⟨v, hs⟩⟩, hc⟩
  · intro h
    obtain ⟨u, ⟨y, hy, hs⟩, hc⟩ := h
    obtain ⟨v, hv⟩ := (spells_loop_iff hg hnd hu (Expr.mem_leaves_of_first hy)).mpr hs
    obtain ⟨p, hp⟩ := Expr.exists_at (Expr.mem_leaves_of_spells hv (x := y) (by simp))
    exact ⟨p, (mem_first_loop_iff hg hroot hnd hb).mpr ⟨y, hy, hp⟩,
      awaits_of_spells hroot hnd hb hv hc hp⟩

/-- What comes before a first position of the loop is a lazy position, so a text that is accepted
so far is cut exactly where the next character leads to such a position. -/
theorem cut_loop_iff (hu : g.Unrolled) (hq : q.lazy = true) (hx : x.Greedy) (hf : f.Greedy)
    (hk : k.Greedy) (ha : (ofExpr t g true captures).AnchorFree) :
    (ofExpr t g true captures).Cut text i ↔
      (∃ p n, (ofExpr t g true captures).Awaits text i p ∧
        (ofExpr t g true captures).positions.symbol? p = some n) ∧
      ∃ u, (Expr.repetition r q x).BeginsAgain u ∧ Consumes text u 0 (i + 1) := by
  have hagain : (∃ p ∈ ((ofExpr t g true captures).endsOf r).first,
      (ofExpr t g true captures).Awaits text (i + 1) p) ↔ _ :=
    exists_awaits_first_iff hg hroot hnd hb hu
  rw [← hagain]
  apply and_congr_right
  intro _
  constructor
  · intro h
    obtain ⟨p, s, z, _, hs, hz, h⟩ := h
    obtain ⟨rfl, _⟩ := (parent?_loop_iff hg hnd hb hq hx hf hk).mp hs
    exact ⟨z, hz, h⟩
  · intro h
    obtain ⟨z, hz, h⟩ := h
    generalize hj : i + 1 = j at h
    cases h with
    | first => exact absurd hj (Nat.succ_ne_zero i)
    | @next n _ p _ o hp ho hread hpz =>
      obtain ⟨rfl, _⟩ := (Leaf.reads_iff (ha p o ho)).mp hread
      obtain rfl := Nat.succ.inj hj
      obtain ⟨y, y', hfollows, hy, hy'⟩ := (mem_after_iff hnd hb).mp hpz
      obtain ⟨y'', hfirst, hy''⟩ := (mem_first_loop_iff hg hroot hnd hb).mp hz
      obtain rfl := hy'.unique hy''
      have hyx := mem_loop_of_follows hg hnd (Expr.mem_leaves_of_first hfirst) hfollows
      refine ⟨p, r, z, hp, ?_, hz, .next hp ho hread hpz⟩
      exact (parent?_loop_iff hg hnd hb hq hx hf hk).mpr ⟨rfl, y, hyx, hy⟩

end

end Analysis

end PositionAutomata
