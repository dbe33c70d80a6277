import PositionAutomata.Tree.Expr

/-
  Unfolded nodes in growing trees.

  A node that unfolds keeps its expression when nodes are added after it
  (`expr_of_grows`), and can be read off it (`get?_of_expr`). Every part of its
  expression is what the node of its tag unfolds to (`expr_of_mem_subexprs`), so
  parts with one tag are one expression (`eq_of_tag_eq`).
-/

namespace PositionAutomata

/-- The node that an expression stands for, its children given by their tags. -/
def Expr.node : Expr NodeId → Node
  | leaf _ l => .leaf l
  | concat _ l r => .concat l.tag r.tag
  | alternation _ l r => .alternation l.tag r.tag
  | repetition _ q e => .repetition e.tag q
  | capture _ g e => .capture e.tag g

namespace Tree

/-- The nodes of a tree are the first ones of another. -/
def Grows (t u : Tree) : Prop := ∃ more, u.nodes.toList = t.nodes.toList ++ more

theorem Grows.refl (t : Tree) : Grows t t := ⟨[], (List.append_nil _).symm⟩

theorem Grows.trans {t u v : Tree} (h : Grows t u) (h' : Grows u v) : Grows t v := by
  obtain ⟨ns, hns⟩ := h
  obtain ⟨ms, hms⟩ := h'
  exact ⟨ns ++ ms, by rw [hms, hns, List.append_assoc]⟩

theorem Grows.size_le {t u : Tree} (h : Grows t u) : t.size ≤ u.size := by
  obtain ⟨ns, hns⟩ := h
  have hlen := congrArg List.length hns
  simp only [Array.length_toList, List.length_append] at hlen
  rw [size, size]
  omega

theorem grows_place (n : Node) (t : Tree) : Grows t (place n t).2 := ⟨[n], by simp [place]⟩

/-! ## Expressions -/

theorem unfoldFrom_append (table : Array (Except Failure (Expr NodeId))) (ns ms : List Node) :
    unfoldFrom table (ns ++ ms) = unfoldFrom (unfoldFrom table ns) ms := by
  induction ns generalizing table with
  | nil => rfl
  | cons n ns ih => exact ih _

theorem size_unfoldFrom (table : Array (Except Failure (Expr NodeId))) (ns : List Node) :
    (unfoldFrom table ns).size = table.size + ns.length := by
  induction ns generalizing table with
  | nil => rfl
  | cons n ns ih =>
    rw [unfoldFrom, ih, Array.size_push, List.length_cons]
    omega

theorem size_exprs (t : Tree) : t.exprs.size = t.size := by
  rw [exprs, size_unfoldFrom]
  simp [size]

theorem lt_size_of_expr {t : Tree} {id : NodeId} {e : Expr NodeId} (h : t.expr id = .ok e) :
    id < t.size := by
  rw [← size_exprs]
  apply Nat.lt_of_not_le
  intro hle
  rw [expr, entry, Array.getElem?_eq_none hle] at h
  exact absurd h (by simp)

theorem expr_of_grows {t u : Tree} (h : Grows t u) {id : NodeId} {e : Expr NodeId}
    (he : t.expr id = .ok e) : u.expr id = .ok e := by
  obtain ⟨more, hmore⟩ := h
  have hlt : id < t.exprs.size := by
    rw [size_exprs]
    exact lt_size_of_expr he
  have hget : u.exprs[id]? = t.exprs[id]? := by
    rw [exprs, hmore, unfoldFrom_append]
    exact getElem?_unfoldFrom_of_lt more hlt
  rw [expr, entry, hget]
  exact he

theorem expr_place {n : Node} {t : Tree} :
    (place n t).2.expr t.size = n.unfold ((place n t).2.childExpr t.size) t.size :=
  expr_of_get? (by simp)

theorem childExpr_place {n : Node} {t : Tree} {id : NodeId} {e : Expr NodeId}
    (h : t.expr id = .ok e) : (place n t).2.childExpr t.size id = .ok e := by
  rw [childExpr, if_pos (lt_size_of_expr h)]
  exact expr_of_grows (grows_place n t) h

/-! ## Tags -/

theorem exists_get?_of_expr {t : Tree} {id : NodeId} {e : Expr NodeId} (h : t.expr id = .ok e) :
    ∃ n, t.get? id = some n ∧ n.unfold (t.childExpr id) id = .ok e := by
  have hlt := lt_size_of_expr h
  have hn : t.get? id = some t.nodes[id] := Array.getElem?_eq_getElem hlt
  exact ⟨_, hn, by rw [← expr_of_get? hn, h]⟩

theorem of_childExpr {t : Tree} {id c : NodeId} {e : Expr NodeId}
    (h : t.childExpr id c = .ok e) : c < id ∧ t.expr c = .ok e := by
  rw [childExpr] at h
  split at h
  next hlt => exact ⟨hlt, h⟩
  next => exact absurd h (by simp)

/-- What a node unfolds to is tagged with its number, and its parts are it and the parts of what
the children unfold to. -/
theorem of_unfold {child : NodeId → Except Failure (Expr NodeId)} {id : NodeId} {n : Node}
    {e : Expr NodeId} (h : n.unfold child id = .ok e) :
    e.tag = id ∧ ∀ x ∈ e.subexprs, x = e ∨ ∃ c f, child c = .ok f ∧ x ∈ f.subexprs := by
  cases n with
  | leaf l =>
    cases h
    exact ⟨rfl, fun x hx => .inl (List.mem_singleton.mp hx)⟩
  | concat l r =>
    obtain ⟨el, hl, h⟩ := bind_eq_ok.mp h
    obtain ⟨er, hr, h⟩ := bind_eq_ok.mp h
    cases h
    refine ⟨rfl, fun x hx => ?_⟩
    rw [Expr.subexprs_concat, List.mem_cons, List.mem_append] at hx
    exact hx.imp_right fun hx => hx.elim (fun hx => ⟨l, el, hl, hx⟩) fun hx => ⟨r, er, hr, hx⟩
  | alternation l r =>
    obtain ⟨el, hl, h⟩ := bind_eq_ok.mp h
    obtain ⟨er, hr, h⟩ := bind_eq_ok.mp h
    cases h
    refine ⟨rfl, fun x hx => ?_⟩
    rw [Expr.subexprs_alternation, List.mem_cons, List.mem_append] at hx
    exact hx.imp_right fun hx => hx.elim (fun hx => ⟨l, el, hl, hx⟩) fun hx => ⟨r, er, hr, hx⟩
  | repetition c q =>
    obtain ⟨ec, hc, h⟩ := bind_eq_ok.mp h
    cases h
    refine ⟨rfl, fun x hx => ?_⟩
    rw [Expr.subexprs_repetition, List.mem_cons] at hx
    exact hx.imp_right fun hx => ⟨c, ec, hc, hx⟩
  | capture c g =>
    obtain ⟨ec, hc, h⟩ := bind_eq_ok.mp h
    cases h
    refine ⟨rfl, fun x hx => ?_⟩
    rw [Expr.subexprs_capture, List.mem_cons] at hx
    exact hx.imp_right fun hx => ⟨c, ec, hc, hx⟩

theorem tag_of_expr {t : Tree} {id : NodeId} {e : Expr NodeId} (h : t.expr id = .ok e) :
    e.tag = id := by
  obtain ⟨n, _, hu⟩ := exists_get?_of_expr h
  exact (of_unfold hu).1

/-- A node that unfolds is the one that its expression stands for. -/
theorem get?_of_expr {t : Tree} {id : NodeId} {e : Expr NodeId} (h : t.expr id = .ok e) :
    t.get? id = some e.node := by
  have htag : ∀ {c f}, t.childExpr id c = .ok f → f.tag = c := fun hc =>
    tag_of_expr (of_childExpr hc).2
  obtain ⟨n, hn, hu⟩ := exists_get?_of_expr h
  rw [hn]
  cases n with
  | leaf l =>
    cases hu
    rfl
  | concat l r =>
    obtain ⟨el, hl, hu⟩ := bind_eq_ok.mp hu
    obtain ⟨er, hr, hu⟩ := bind_eq_ok.mp hu
    cases hu
    rw [Expr.node, htag hl, htag hr]
  | alternation l r =>
    obtain ⟨el, hl, hu⟩ := bind_eq_ok.mp hu
    obtain ⟨er, hr, hu⟩ := bind_eq_ok.mp hu
    cases hu
    rw [Expr.node, htag hl, htag hr]
  | repetition c q =>
    obtain ⟨ec, hc, hu⟩ := bind_eq_ok.mp hu
    cases hu
    rw [Expr.node, htag hc]
  | capture c g =>
    obtain ⟨ec, hc, hu⟩ := bind_eq_ok.mp hu
    cases hu
    rw [Expr.node, htag hc]

/-- A part of an expression is what the node of its tag unfolds to. -/
theorem expr_of_mem_subexprs {t : Tree} {id : NodeId} {e : Expr NodeId} (h : t.expr id = .ok e) :
    ∀ x ∈ e.subexprs, t.expr x.tag = .ok x := by
  induction id using Nat.strongRecOn generalizing e with
  | ind id ih =>
    obtain ⟨n, _, hu⟩ := exists_get?_of_expr h
    obtain ⟨htag, hparts⟩ := of_unfold hu
    intro x hx
    rcases hparts x hx with rfl | ⟨c, f, hc, hx⟩
    · rwa [htag]
    · obtain ⟨hlt, hf⟩ := of_childExpr hc
      exact ih c hlt hf x hx

theorem eq_of_tag_eq {t : Tree} {id : NodeId} {e x y : Expr NodeId} (h : t.expr id = .ok e)
    (hx : x ∈ e.subexprs) (hy : y ∈ e.subexprs) (htag : x.tag = y.tag) : x = y := by
  have hexpr := expr_of_mem_subexprs h x hx
  rw [htag, expr_of_mem_subexprs h y hy] at hexpr
  exact (Except.ok.inj hexpr).symm

end Tree

end PositionAutomata
