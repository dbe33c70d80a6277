import PositionAutomata.Automaton.Reachability
import PositionAutomata.Failure

/-
  Automata as arrays of 32-bit integers.

  The states follow each other in the order of the closure of the start. A
  state is written as

    accept  groups  (target  count  data ...) ...

  with its symbol or -1, the number of targets and, for each target, the offset
  at which the target is written, the number of data items and the items: pairs
  of a first and a last value in the range encoding, single values in the
  codepoint encoding. Anchors are written as -2 and -3. A range array has an
  even length; a codepoint array is padded with -1 to an odd length, so that
  the two can be told apart. Events are not written.
-/

namespace PositionAutomata

namespace Packed

/-- How the values of a transition are written. -/
inductive Encoding where
  | ranges
  | codepoints
  deriving DecidableEq

/-- What is written for "no symbol" and as padding. -/
def noAccept : Int := -1

/-- What is written for the anchor of a line start. -/
def lineStartCode : Int := -2

/-- What is written for the anchor of the text end. -/
def textEndCode : Int := -3

/-- A number as a 32-bit integer. -/
def word (n : Nat) : Int := Int.bmod n 0x100000000

/-- A value as it is written. -/
def code (c : Nat) : Int :=
  if c = lineStart then lineStartCode else if c = textEnd then textEndCode else word c

/-- Whether an array is in the range encoding. -/
def isRangeArray (array : Array Int) : Bool := array.size % 2 = 0

/-! ## Writing -/

namespace Encoding

/-- Number of integers that a data item takes. -/
def itemSize : Encoding → Nat
  | ranges => 2
  | codepoints => 1

/-- Number of data items of a list of ranges. -/
def itemCount : Encoding → List Range → Nat
  | ranges, rs => rs.length
  | codepoints, rs => rs.foldr (fun r n => r.size + n) 0

/-- The data items of a list of ranges. -/
def items : Encoding → List Range → List Int
  | ranges, rs => rs.flatMap fun r => [code r.first, code r.last]
  | codepoints, rs => rs.flatMap fun r => r.codepoints.map code

/-- Whether a codepoint array of this length needs padding. -/
def needsPadding (e : Encoding) (length : Nat) : Bool := e = codepoints && length % 2 = 0

end Encoding

/-- A state as it is written, targets still by number. -/
structure Record where
  state : StateId
  accept : Option Nat
  groups : List (StateId × List Range)

namespace Record

/-- Number of integers that the record takes. -/
def length (r : Record) (e : Encoding) : Nat :=
  2 + r.groups.foldr (fun (_, rs) n => 2 + e.itemSize * e.itemCount rs + n) 0

/-- The integers of the record, given the offsets of the states. -/
def write (r : Record) (e : Encoding) (offset : StateId → Nat) : List Int :=
  r.accept.elim noAccept word :: word r.groups.length ::
    r.groups.flatMap fun (target, rs) =>
      word (offset target) :: word (e.itemCount rs) :: e.items rs

end Record

/-- The records of the states, in order. -/
def records (a : Automaton) : List Record :=
  (a.closure a.start).map fun q => ⟨q, a.accept q, (a.get? q).elim [] State.grouped⟩

/-- The offset at which each state is written, the first one at `start`. -/
def offsets (e : Encoding) (start : Nat) : List Record → List (StateId × Nat)
  | [] => []
  | r :: rest => (r.state, start) :: offsets e (start + r.length e) rest

/-- Length of the array, without writing it. -/
def length (a : Automaton) (e : Encoding) : Nat :=
  let n := (records a).foldr (fun r n => r.length e + n) 0
  if e.needsPadding n then n + 1 else n

/-- The array of an automaton. -/
def encode (a : Automaton) (e : Encoding) : List Int :=
  let rs := records a
  let table := offsets e 0 rs
  let written := rs.flatMap (·.write e fun q => (table.lookup q).getD 0)
  if e.needsPadding written.length then written ++ [noAccept] else written

/-- The encoding that gives the shorter array; on a tie, codepoints. -/
def shortest (a : Automaton) : Encoding :=
  if length a .ranges < length a .codepoints then .ranges else .codepoints

/-- The shorter of the two arrays. -/
def encodeShortest (a : Automaton) : List Int := encode a (shortest a)

/-! ## Reading -/

/-- The integer at an offset. -/
def read (array : Array Int) (offset : Nat) : Except Failure Int :=
  match array[offset]? with
  | some n => .ok n
  | none => .error (.malformedArray offset)

/-- The number at an offset, which must not be negative. -/
def readCount (array : Array Int) (offset : Nat) : Except Failure Nat := do
  let n ← read array offset
  if n < 0 then throw (.malformedArray offset) else return n.toNat

/-- The value at an offset: an anchor or a code point. -/
def readValue (array : Array Int) (offset : Nat) : Except Failure Nat := do
  let n ← read array offset
  if n = lineStartCode then return lineStart
  else if n = textEndCode then return textEnd
  else if 0 ≤ n ∧ n ≤ maxCodepoint then return n.toNat
  else throw (.malformedArray offset)

/-- The range at an offset. -/
def readRange (array : Array Int) (offset : Nat) : Encoding → Except Failure Range
  | .ranges => do
    let first ← readValue array offset
    let last ← readValue array (offset + 1)
    if h : first ≤ last then return ⟨first, last, h⟩ else throw (.malformedArray offset)
  | .codepoints => return .single (← readValue array offset)

/-- Some ranges from an offset on. -/
def readRanges (array : Array Int) (e : Encoding) :
    (count offset : Nat) → Except Failure (List Range)
  | 0, _ => return []
  | n + 1, offset => do
    let r ← readRange array offset e
    return r :: (← readRanges array e n (offset + e.itemSize))

/-- The offset after some groups. -/
def skipGroups (array : Array Int) (e : Encoding) :
    (count offset : Nat) → Except Failure { next : Nat // offset ≤ next }
  | 0, offset => return ⟨offset, Nat.le_refl _⟩
  | n + 1, offset => do
    let items ← readCount array (offset + 1)
    let ⟨next, h⟩ ← skipGroups array e n (offset + 2 + e.itemSize * items)
    return ⟨next, by omega⟩

/-- The offset after the record at an offset. -/
def skipRecord (array : Array Int) (e : Encoding) (offset : Nat) :
    Except Failure { next : Nat // offset < next } := do
  let groups ← readCount array (offset + 1)
  let ⟨next, h⟩ ← skipGroups array e groups (offset + 2)
  return ⟨next, by omega⟩

/-- The offsets of the records from an offset on that start before `stop`, and
the offset after the last of them. -/
def starts (array : Array Int) (e : Encoding) (stop offset : Nat) :
    Except Failure (List Nat × Nat) :=
  if _ : offset < stop then do
    let ⟨next, _⟩ ← skipRecord array e offset
    let (rest, last) ← starts array e stop next
    return (offset :: rest, last)
  else return ([], offset)
  termination_by stop - offset

/-- The offset at which the records have to end: before the padding, if there
is any. -/
def stopOf (array : Array Int) : Encoding → Except Failure Nat
  | .ranges => return array.size
  | .codepoints =>
    if array.back? = some noAccept then do
      let (_, last) ← starts array .codepoints (array.size - 1) 0
      return if last = array.size - 1 then last else array.size
    else return array.size

/-- Adds the transitions of some groups from an offset on; `rank?` is the number
of the state that is written at an offset. -/
def readGroups (array : Array Int) (e : Encoding) (rank? : Nat → Option StateId) :
    (count offset : Nat) → State → Except Failure State
  | 0, _, q => return q
  | n + 1, offset, q => do
    let place ← readCount array offset
    match rank? place with
    | none => throw (.malformedArray offset)
    | some target =>
      let count ← readCount array (offset + 1)
      let rs ← readRanges array e count (offset + 2)
      let q := (Range.normalize rs).foldl (fun q r => q.addTransition ⟨r, target⟩) q
      readGroups array e rank? n (offset + 2 + e.itemSize * count) q

/-- The state that is written at an offset. -/
def readState (array : Array Int) (e : Encoding) (rank? : Nat → Option StateId) (offset : Nat) :
    Except Failure State := do
  let accept ← read array offset
  let groups ← readCount array (offset + 1)
  readGroups array e rank? groups (offset + 2)
    (.isolated (if accept < 0 then none else some accept.toNat) [])

/-- The automaton of an array. The empty array stands for the automaton that
accepts nothing. -/
def decode (array : Array Int) : Except Failure Automaton := do
  if array.isEmpty then return .trivial
  let e := if isRangeArray array then Encoding.ranges else Encoding.codepoints
  let stop ← stopOf array e
  let (offsets, last) ← starts array e stop 0
  if stop < last then throw (.malformedArray stop)
  let states ← offsets.mapM (readState array e (Index.ofList offsets).get?)
  return ⟨states.toArray, 0⟩

end Packed

end PositionAutomata
