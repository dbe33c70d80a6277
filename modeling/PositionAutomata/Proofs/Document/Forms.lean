import PositionAutomata.Document.Reader
import PositionAutomata.Proofs.Document.Tokens

/-
  What the reader does with a token, form by form.

  Whatever a token is read as is made of few steps: a fault, a leaf, a text, and
  steps that read the parts of an expression and put a node over them. A property
  that they have or keep (`KeptByForms`) is one of whatever is read from a token
  (`KeptByForms.read`, by recursion on the token), also where the names of groups
  have a property of their own to pass on.
-/

namespace PositionAutomata.Reader

variable {α β : Type} {s s' : State}

/-! ## Steps one after the other -/

theorem run_bind_eq_ok {x : Read α} {f : α → Read β} {b : β} :
    (x >>= f).run s = .ok (b, s') ↔
      ∃ a s₁, x.run s = .ok (a, s₁) ∧ (f a).run s₁ = .ok (b, s') := by
  rw [StateT.run_bind]
  cases x.run s with
  | error e => exact ⟨nofun, nofun⟩
  | ok p =>
    refine ⟨fun h => ⟨p.1, p.2, rfl, h⟩, fun ⟨a, s₁, hrun, h⟩ => ?_⟩
    cases hrun
    exact h

theorem run_bind_eq_error {x : Read α} {f : α → Read β} {e : Located DocumentFault} :
    (x >>= f).run s = .error e ↔
      x.run s = .error e ∨ ∃ a s₁, x.run s = .ok (a, s₁) ∧ (f a).run s₁ = .error e := by
  rw [StateT.run_bind]
  cases x.run s with
  | error e' =>
    refine ⟨fun h => .inl (congrArg Except.error (Except.error.inj h)), fun h => ?_⟩
    exact congrArg Except.error (Except.error.inj (h.resolve_right nofun))
  | ok p =>
    refine ⟨fun h => .inr ⟨p.1, p.2, rfl, h⟩, fun h => ?_⟩
    obtain ⟨a, s₁, hrun, hlater⟩ := h.resolve_left nofun
    cases hrun
    exact hlater

/-! ## Forms -/

/-- A property `P` of steps that answer a node, and one `Q` of steps that answer several, which all
forms of expressions keep, as long as the names of groups are tokens with a property `W`, which a
token passes on to its items. The faults are those of the reader itself. -/
structure KeptByForms (W : Token → Prop) (P : Read NodeId → Prop)
    (Q : Read (List NodeId) → Prop) : Prop where
  item : ∀ {span items}, W (.group span items) → ∀ t ∈ items, W t
  fault : ∀ {span f}, (∀ g, f ≠ .lexical g) → P (fault span f)
  leaf : ∀ l, P (add (Tree.leaf l))
  string : ∀ cs, P (add (Tree.string cs))
  nil : Q (pure [])
  cons : ∀ {x y}, P x → Q y → Q (do return (← x) :: (← y))
  concatAll : ∀ {x}, Q x → P (x >>= fun ids => add (Tree.concatAll ids))
  anyOf : ∀ {x}, Q x → P (x >>= fun ids => add (Tree.anyOf ids))
  repetition : ∀ {x}, P x → ∀ q, P (x >>= fun id => add (Tree.repetition id q))
  name : ∀ t {f}, (∀ s, P (f s)) → P (name t >>= f)
  bound : ∀ t {f}, (∀ n, P (f n)) → P (bound t >>= f)
  capture : ∀ {x}, P x →
    P (newGroup >>= fun number => x >>= fun id => add (Tree.capture id ⟨number, none⟩))
  labelled : ∀ {x}, P x → ∀ t, W t → P (newGroup >>= fun number => Reader.name t >>= fun label =>
    x >>= fun id => add (Tree.capture id ⟨number, some label⟩))
  uncaptured : ∀ {span f}, (∀ g, f ≠ .lexical g) → P (newGroup >>= fun _ => Reader.fault span f)

namespace KeptByForms

variable {W : Token → Prop} {P : Read NodeId → Prop} {Q : Read (List NodeId) → Prop}
  (h : KeptByForms W P Q)
include h

theorem readWord (t : Token) (cs : List Char) : P (readWord t cs) := by
  unfold Reader.readWord
  split
  · exact h.leaf _
  · exact h.leaf _
  · exact h.leaf _
  · exact h.fault nofun

theorem readClass (t : Token) : P (readClass t) := by
  refine h.name t fun name => ?_
  split
  · exact h.leaf _
  · exact h.fault nofun

theorem readAll {ts : List Token} (hts : ∀ t ∈ ts, P (read false t)) : Q (readAll ts) := by
  induction ts with
  | nil =>
    rw [Reader.readAll]
    exact h.nil
  | cons t ts ih =>
    obtain ⟨ht, hts⟩ := List.forall_mem_cons.mp hts
    rw [Reader.readAll]
    exact h.cons ht (ih hts)

theorem form {args : List Token} (hargs : ∀ t ∈ args, ∀ lazy, P (Reader.read lazy t))
    (hnames : ∀ t ∈ args, W t) (lazy : Bool) (span word : Span) (cs : List Char) :
    P (Reader.read lazy (.group span (.ident word cs :: args))) := by
  unfold Reader.read
  dsimp only
  split
  · exact h.fault nofun
  -- The cases are those of the forms with their arguments.
  split
  next => exact h.fault nofun
  next => exact h.concatAll (h.readAll fun t ht => hargs t ht false)
  next => exact h.fault nofun
  next => exact h.anyOf (h.readAll fun t ht => hargs t ht false)
  next q e _ => exact h.repetition (hargs e (by simp) false) _
  next => exact h.fault nofun
  next min max e _ =>
    exact h.bound min fun _ => h.bound max fun _ => h.repetition (hargs e (by simp) false) _
  next => exact h.fault nofun
  next e _ => exact hargs e (by simp) true
  next => exact h.fault nofun
  next args _ _ _ =>
    match args, hargs, hnames with
    | [], _, _ => exact h.uncaptured nofun
    | [e], hargs, _ => exact h.capture (hargs e (by simp) false)
    | [label, e], hargs, hnames =>
      exact h.labelled (hargs e (by simp) false) label (hnames label (by simp))
    | _ :: _ :: _ :: _, _, _ => exact h.uncaptured nofun
  next t _ => exact h.readClass t
  next => exact h.fault nofun
  next => exact h.leaf _
  next => exact h.fault nofun

/-- What all forms keep holds of whatever is read from a token. -/
theorem read (t : Token) (ht : W t) : ∀ lazy, P (Reader.read lazy t) := by
  induction t using Token.induction with
  | group span items ih =>
    intro lazy
    have hitems := h.item ht
    match items, ih, hitems with
    | [], _, _ =>
      rw [Reader.read]
      exact h.fault nofun
    | .ident word cs :: args, ih, hitems =>
      have hargs : ∀ t ∈ args, W t := fun t ht => hitems t (List.mem_cons_of_mem _ ht)
      exact h.form (fun t ht => ih t (List.mem_cons_of_mem _ ht) (hargs t ht)) hargs lazy span word
        cs
    | .group inner items :: args, _, _ =>
      rw [Reader.read]
      · exact h.fault nofun
      · simp
    | .string inner text :: args, _, _ =>
      rw [Reader.read]
      · exact h.fault nofun
      · simp
    | .charset inner set :: args, _, _ =>
      rw [Reader.read]
      · exact h.fault nofun
      · simp
  | string span text =>
    intro lazy
    rw [Reader.read]
    split
    · exact h.fault nofun
    · exact h.string text
  | charset span set =>
    intro lazy
    rw [Reader.read]
    split
    · exact h.fault nofun
    · exact h.leaf _
  | ident span cs =>
    intro lazy
    rw [Reader.read]
    split
    · exact h.fault nofun
    · exact h.readWord _ _

end KeptByForms

end PositionAutomata.Reader
