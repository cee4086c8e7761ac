import PageContent.Proofs.RoundTrip
import PageContent.Proofs.Relocation
import PageContent.Proofs.Segmentation

/-! # Calls by themselves

    One call of an operator, written as text and read as its production.

    * **Operands** of any nesting that is allowed are read back as they are, each at the
      place at which it is written.
    * **Count before type**: a wrong number of operands is reported first, at the place of
      the whole call.
    * **First misfit**: of several operands of wrong types the first one is reported, at
      its own place.
-/

namespace PageContent

open Grammar

/-! ## Tokens that say an operand -/

namespace Grammar

mutual

/-- Tokens that say an operand are the operand, if it is not too deep. -/
theorem exists_isOperand_of_lexemes {d : Nat} (x : Operand) (hd : x.depth ≤ d)
    {ts : List Token} (h : ts.map (·.lexeme) = x.lexemes) : ∃ s, IsOperand d ts x s := by
  -- an operand of one token is what this token is by itself
  have hscalar : ∀ {l : Lexeme} {y : Operand}, l.scalar? = some y →
      ts.map (·.lexeme) = [l] → ∃ s, IsOperand d ts y s := by
    intro l y hl hts
    obtain ⟨t, rfl, ht⟩ := List.map_eq_singleton_iff.mp hts
    exact ⟨t.span, IsOperand.scalar (ht ▸ hl)⟩
  match x with
  | .array items =>
    obtain ⟨opened, us, rfl, ho, hus⟩ := List.map_eq_cons_iff.mp h
    obtain ⟨vs, ws, rfl, hvs, hws⟩ := List.map_eq_append_iff.mp hus
    obtain ⟨closed, rfl, hc⟩ := List.map_eq_singleton_iff.mp hws
    match d, hd with
    | d + 1, hd =>
      obtain ⟨ys, hys, hitems⟩ :=
        exists_areOperands_of_lexemes items (Nat.succ_le_succ_iff.mp hd) hvs
      rw [← hitems]
      exact ⟨_, IsOperand.array ho hys hc⟩
  | .dictionary entries =>
    obtain ⟨opened, us, rfl, ho, hus⟩ := List.map_eq_cons_iff.mp h
    obtain ⟨vs, ws, rfl, hvs, hws⟩ := List.map_eq_append_iff.mp hus
    obtain ⟨closed, rfl, hc⟩ := List.map_eq_singleton_iff.mp hws
    match d, hd with
    | d + 1, hd =>
      have hentries := areEntries_of_lexemes entries (Nat.succ_le_succ_iff.mp hd) hvs
      exact ⟨_, IsOperand.dictionary ho hentries hc⟩
  | .string .literal _ | .string .hex _ => exact hscalar rfl h
  | .integer _ | .real _ | .boolean _ | .null | .name _ | .inlineData _ => exact hscalar rfl h

theorem exists_areOperands_of_lexemes {d : Nat} (xs : List Operand)
    (hd : Operand.depthOfItems xs ≤ d) {ts : List Token}
    (h : ts.map (·.lexeme) = Operand.lexemesOfItems xs) :
    ∃ ys, AreOperands d ts ys ∧ ys.map (·.1) = xs := by
  match xs with
  | [] =>
    obtain rfl := List.map_eq_nil_iff.mp h
    exact ⟨[], AreOperands.nil, rfl⟩
  | x :: xs =>
    obtain ⟨us, vs, rfl, hus, hvs⟩ := List.map_eq_append_iff.mp h
    have hdepth := Nat.max_le.mp hd
    obtain ⟨s, hx⟩ := exists_isOperand_of_lexemes x hdepth.1 hus
    obtain ⟨ys, hys, rfl⟩ := exists_areOperands_of_lexemes xs hdepth.2 hvs
    exact ⟨(x, s) :: ys, AreOperands.cons hx hys, rfl⟩

theorem areEntries_of_lexemes {d : Nat} (es : List (String × Operand))
    (hd : Operand.depthOfEntries es ≤ d) {ts : List Token}
    (h : ts.map (·.lexeme) = Operand.lexemesOfEntries es) : AreEntries d ts es := by
  match es with
  | [] =>
    obtain rfl := List.map_eq_nil_iff.mp h
    exact AreEntries.nil
  | (key, x) :: es =>
    obtain ⟨t, us, rfl, ht, hus⟩ := List.map_eq_cons_iff.mp h
    obtain ⟨vs, ws, rfl, hvs, hws⟩ := List.map_eq_append_iff.mp hus
    have hdepth := Nat.max_le.mp hd
    obtain ⟨s, hx⟩ := exists_isOperand_of_lexemes x hdepth.1 hvs
    exact AreEntries.cons ht hx (areEntries_of_lexemes es hdepth.2 hws)

end

/-- An operand lies where its tokens lie. -/
theorem span_of_isOperand {d : Nat} {ts : List Token} {x : Operand} {s : Span}
    (h : IsOperand d ts x s) : s = Span.ofRun (ts.map (·.span)) := by
  cases h with
  | scalar hx => exact (Span.join_self _).symm
  | array ho hxs hc => simp [Span.ofRun, List.getLastD_eq_getLast?]
  | dictionary ho hes hc => simp [Span.ofRun, List.getLastD_eq_getLast?]

end Grammar

/-! ## Places -/

namespace Lexer

variable {l l' : Lexer} {ts : List Token}

/-- Tokens lie where the lexer passes. -/
theorem Reaches.between (h : Reaches l ts l') :
    ∀ t ∈ ts, l.position ≤ t.span.start ∧ t.span.start ≤ t.span.stop ∧
      t.span.stop ≤ l'.position := by
  induction h with
  | refl => exact fun t ht => absurd ht List.not_mem_nil
  | @step l l₁ l' t ts hnext hne hrest ih =>
    obtain ⟨width, -, hspan, hl₁⟩ := of_next hnext
    obtain ⟨c, -, hposition⟩ := exists_rest_of_reaches hrest
    have hstart : t.span.start = l.position + l.gap := by rw [hspan]
    have hstop : t.span.stop = l.position + l.gap + width := by rw [hspan]
    have hl₁' : l₁.position = l.position + l.gap + width := by rw [hl₁]
    intro u hu
    rcases List.mem_cons.mp hu with rfl | hu
    · omega
    · have hbetween := ih u hu
      omega

/-- A run of tokens lies from its start to its end, if there is no gap in front. -/
theorem Reaches.ofRun (h : Reaches l ts l') (hne : ts ≠ []) (hgap : l.gap = 0) :
    Span.ofRun (ts.map (·.span)) = ⟨l.position, l'.position⟩ := by
  have hbetween := h.between
  obtain ⟨t, us, rfl⟩ := List.exists_cons_of_ne_nil hne
  have hfirst : t.span.start = l.position := by
    cases h with
    | step hnext hlexeme hrest =>
      obtain ⟨width, -, hspan, -⟩ := of_next hnext
      rw [hspan, hgap]
      rfl
  -- the last token ends where the run does
  have hlast : ∃ u ∈ t :: us, (us.map (·.span)).getLastD t.span = u.span ∧
      u.span.stop = l'.position := by
    obtain ⟨vs, u, hus⟩ := (List.eq_nil_or_concat (t :: us)).resolve_left hne
    rw [List.concat_eq_append] at hus
    rw [hus] at h
    obtain ⟨l₁, -, hnext⟩ := h.of_concat
    refine ⟨u, by simp [hus], ?_, (state_of_next hnext).1.symm⟩
    match vs with
    | [] =>
      obtain ⟨rfl, rfl⟩ := List.cons.inj hus
      rfl
    | v :: vs =>
      obtain ⟨-, rfl⟩ := List.cons.inj hus
      simp
  obtain ⟨u, hu, hspan, hstop⟩ := hlast
  have ht := hbetween t List.mem_cons_self
  have hu' := hbetween u hu
  show t.span.join ((us.map (·.span)).getLastD t.span) = _
  rw [hspan]
  have hmin : min t.span.start u.span.start = l.position := by omega
  have hmax : max t.span.stop u.span.stop = l'.position := by omega
  show Span.mk (min t.span.start u.span.start) (max t.span.stop u.span.stop) = _
  rw [hmin, hmax]

end Lexer

/-! ## Operands in place -/

/-- Whether a token of an operand can be written: a real if it is finite, and image data
    never. -/
def Lexeme.isWritable : Lexeme → Bool
  | .real r => decide r.IsFinite
  | .inlineData _ => false
  | _ => true

namespace Operand

open Lexer

/-- What can be written so that it is read back, and not too deep to be read. -/
structure Writable (x : Operand) : Prop where
  /-- Every real in the operand is finite. -/
  finite : ∀ r, (Operand.real r).Within x → r.IsFinite
  /-- There is no image data in the operand. -/
  noData : ∀ bytes, ¬ (Operand.inlineData bytes).Within x
  /-- Containers are not nested too deep. -/
  depth_le : x.depth ≤ 28

theorem Writable.legible {x : Operand} (h : x.Writable) : x.Legible := by
  intro l hl
  cases l with
  | real r => exact Lexeme.Legible.real (h.finite r (within_of_mem_lexemes rfl (by simp) x hl))
  | inlineData bytes => exact absurd (within_of_mem_lexemes rfl (by simp) x hl) (h.noData bytes)
  | operator keyword => exact absurd hl (x.noOperators keyword)
  | eof => exact absurd (x.not_endsOperands _ hl) (by decide)
  | integer i => exact Lexeme.Legible.integer i
  | boolean b => exact Lexeme.Legible.boolean b
  | null => exact Lexeme.Legible.null
  | name n => exact Lexeme.Legible.name n
  | literal bytes => exact Lexeme.Legible.literal bytes
  | hex bytes => exact Lexeme.Legible.hex bytes
  | arrayOpen => exact Lexeme.Legible.arrayOpen
  | arrayClose => exact Lexeme.Legible.arrayClose
  | dictOpen => exact Lexeme.Legible.dictOpen
  | dictClose => exact Lexeme.Legible.dictClose

/-- Whether an operand can be written can be seen from its lexemes. -/
theorem writable_iff {x : Operand} :
    x.Writable ↔ (∀ l ∈ x.lexemes, l.isWritable = true) ∧ x.depth ≤ 28 := by
  constructor
  · intro h
    refine ⟨?_, h.depth_le⟩
    intro l hl
    cases l with
    | real r => exact decide_eq_true (h.finite r (within_iff_mem_lexemes.mpr hl))
    | inlineData bytes => exact absurd (within_of_mem_lexemes rfl (by simp) x hl) (h.noData bytes)
    | _ => rfl
  · intro hparts
    rcases hparts with ⟨hlexemes, hdepth⟩
    refine ⟨?_, ?_, hdepth⟩
    · intro r hr
      exact of_decide_eq_true (hlexemes _ (within_iff_mem_lexemes.mp hr))
    · intro bytes hbytes
      exact absurd (hlexemes _ (hbytes.mem_lexemes _ List.mem_cons_self)) Bool.false_ne_true

instance (x : Operand) : Decidable x.Writable :=
  decidable_of_iff _ writable_iff.symm

/-- No gap is in front of what is written for an operand. -/
theorem blanks_latin1 (x : Operand) (hx : x.Legible) {r : List UInt8} (hr : WordEnds r) :
    Reading.blanks false (x.latin1 ++ r) = 0 := by
  have hscalar : ∀ {y : Operand} {l : Lexeme}, y.Legible → y.lexemes = [l] →
      Reading.blanks false (y.latin1 ++ r) = 0 := by
    intro y l hy hl
    exact Reading.blanks_of_token ((spells_scalar hl (hy l (hl ▸ List.mem_cons_self))).2 r hr)
  match x with
  | .array items =>
    have hbytes : (Operand.array items).latin1 ++ r =
        Byte.ofChar '[' :: (latin1Items items ++ [Byte.ofChar ']'] ++ r) := by
      simp [latin1]
    rw [hbytes]
    exact Reading.blanks_of_token (Reading.ofBytes_arrayOpen _)
  | .dictionary entries =>
    have hbytes : (Operand.dictionary entries).latin1 ++ r =
        Byte.ofChar '<' :: Byte.ofChar '<' ::
          (latin1Entries entries ++ Byte.ofChars [' ', '>', '>'] ++ r) := by
      simp [latin1, Byte.ofChars]
    rw [hbytes]
    exact Reading.blanks_of_token (Reading.ofBytes_dictOpen _)
  | .string .literal _ | .string .hex _ => exact hscalar hx rfl
  | .integer _ | .real _ | .boolean _ | .null | .name _ | .inlineData _ => exact hscalar hx rfl

/-- An operand is read where it is written. -/
theorem exists_isOperand_latin1 {x : Operand} (hx : x.Writable) {r : List UInt8}
    (hr : WordEnds r) (position : Nat) :
    ∃ ts, Reaches ⟨x.latin1 ++ r, position, false⟩ ts ⟨r, position + x.latin1.length, false⟩ ∧
      IsOperand 28 ts x ⟨position, position + x.latin1.length⟩ := by
  obtain ⟨ts, hreach, hts⟩ := yields_operand x hx.legible hr position
  obtain ⟨s, hs⟩ := exists_isOperand_of_lexemes x hx.depth_le hts
  have hne : ts ≠ [] := by
    intro hnil
    rw [hnil] at hts
    exact x.lexemes_ne_nil hts.symm
  have hgap : Lexer.gap ⟨x.latin1 ++ r, position, false⟩ = 0 := x.blanks_latin1 hx.legible hr
  have hspan := hreach.ofRun hne hgap
  rw [← span_of_isOperand hs] at hspan
  exact ⟨ts, hreach, hspan ▸ hs⟩

/-- Operands with the places at which they are written, from `position` on. Each has a
    space after it. -/
def placed (position : Nat) : List Operand → List (Operand × Span)
  | [] => []
  | x :: xs =>
    let stop := position + (Utf8.encode x.text).length
    (x, ⟨position, stop⟩) :: placed (stop + 1) xs

theorem map_fst_placed (position : Nat) (xs : List Operand) :
    (placed position xs).map (·.1) = xs := by
  induction xs generalizing position with
  | nil => rfl
  | cons x xs ih => exact congrArg (x :: ·) (ih _)

theorem Writable.encode_text {x : Operand} (h : x.Writable) :
    Utf8.encode x.text = x.latin1 :=
  Utf8.encode_latin1 (ascii_operand x h.legible)

/-- At the place of an operand stands what is written for it. -/
theorem slice_of_mem_placed {xs : List Operand} (hxs : ∀ x ∈ xs, x.Writable) {x : Operand}
    {s : Span} (before after : List UInt8) (h : (x, s) ∈ placed before.length xs) :
    s.slice (before ++ (xs.flatMap (fun x => x.latin1 ++ [0x20]) ++ after)) =
      Utf8.encode x.text := by
  induction xs generalizing before with
  | nil => exact absurd h List.not_mem_nil
  | cons y ys ih =>
    have hy := (hxs y List.mem_cons_self).encode_text
    rw [List.flatMap_cons, List.append_assoc, List.append_assoc]
    rcases List.mem_cons.mp h with hfirst | hothers
    · obtain ⟨rfl, rfl⟩ := Prod.mk.inj hfirst
      rw [hy]
      exact Span.slice_append before x.latin1 _
    · have hlength : before.length + (Utf8.encode y.text).length + 1 =
          (before ++ y.latin1 ++ [0x20]).length := by
        rw [hy, List.length_append, List.length_append, List.length_singleton]
      rw [hlength] at hothers
      have hrest := ih (fun z hz => hxs z (List.mem_cons_of_mem y hz)) _ hothers
      rw [List.append_assoc, List.append_assoc] at hrest
      exact hrest

/-- Operands and what comes after them are read where they are written. -/
theorem exists_areOperands_placed {xs : List Operand} (hxs : ∀ x ∈ xs, x.Writable)
    {k : List UInt8} {l : Lexeme} (hk : Reading.Spells k l) (hne : l ≠ .eof)
    (hid : l ≠ .operator "ID") (position : Nat) :
    ∃ ts start, start = position + (xs.flatMap fun x => x.latin1 ++ [0x20]).length ∧
      Reaches ⟨(xs.flatMap fun x => x.latin1 ++ [0x20]) ++ k, position, false⟩
        (ts ++ [⟨l, ⟨start, start + k.length⟩⟩]) ⟨[], start + k.length, false⟩ ∧
      AreOperands 28 ts (placed position xs) := by
  induction xs generalizing position with
  | nil =>
    have hnext := next_front (hk.2 [] wordEnds_nil) position
    rw [decide_eq_false hid, List.append_nil] at hnext
    exact ⟨[], position, rfl, Reaches.step hnext hne Reaches.refl, AreOperands.nil⟩
  | cons x xs ih =>
    have hx := hxs x List.mem_cons_self
    -- the space after the operand is the gap in front of what comes next
    obtain ⟨us, start, hstart, hrest, hus⟩ :=
      ih (fun y hy => hxs y (List.mem_cons_of_mem x hy)) (position + x.latin1.length + 1)
    obtain ⟨ts, hreach, hts⟩ := exists_isOperand_latin1 hx
      (wordEnds_space ((xs.flatMap fun x => x.latin1 ++ [0x20]) ++ k)) position
    have hall := hreach.trans (hrest.space (by simp))
    have hbytes : ((x :: xs).flatMap fun x => x.latin1 ++ [0x20]) ++ k =
        x.latin1 ++ 0x20 :: ((xs.flatMap fun x => x.latin1 ++ [0x20]) ++ k) := by
      simp
    refine ⟨ts ++ us, start, ?_, ?_, ?_⟩
    · rw [hstart, List.flatMap_cons]
      simp only [List.length_append, List.length_singleton]
      omega
    · rw [hbytes, List.append_assoc]
      exact hall
    · unfold placed
      rw [hx.encode_text]
      exact AreOperands.cons hts hus

end Operand

/-! ## Shapes -/

/-- `arity.Shape types`: the operator takes operands of these types. -/
inductive Arity.Shape : Arity → List OperandType → Prop where
  | fixed (types : List OperandType) : Shape (.fixed types) types
  | range {least most n : Nat} (type : OperandType) (hleast : least ≤ n) (hmost : n ≤ most) :
      Shape (.range least most type) (List.replicate n type)

/-- The arities that have shapes. -/
inductive Arity.HasShapes : Arity → Prop where
  | fixed (types : List OperandType) : HasShapes (.fixed types)
  | range (least most : Nat) (type : OperandType) : HasShapes (.range least most type)

/-- Every operand is of the type at its place. -/
def Operand.AreOf (xs : List Operand) (types : List OperandType) : Prop :=
  ∀ (i : Nat) x type, xs[i]? = some x → types[i]? = some type → type.accepts x = true

/-- The operand `x` at `i` is not of its type, and those before it are of theirs. -/
structure Operand.FirstMisfit (xs : List Operand) (types : List OperandType) (i : Nat)
    (x : Operand) (type : OperandType) : Prop where
  operand_eq : xs[i]? = some x
  type_eq : types[i]? = some type
  refused : type.accepts x = false
  before : ∀ j y type', j < i → xs[j]? = some y → types[j]? = some type' →
    type'.accepts y = true

namespace Arity

variable {arity : Arity} {types : List OperandType} {n : Nat}

/-- A number of operands is allowed if there is a shape of this length. -/
theorem acceptsCount_iff (h : arity.HasShapes) :
    arity.acceptsCount n ↔ ∃ types, arity.Shape types ∧ types.length = n := by
  cases h with
  | fixed types =>
    constructor
    · intro hn
      exact ⟨types, Shape.fixed types, (eq_of_beq hn).symm⟩
    · intro hparts
      rcases hparts with ⟨types', hshape, hlength⟩
      cases hshape with
      | fixed => exact beq_iff_eq.mpr hlength.symm
  | range least most type =>
    constructor
    · intro hn
      obtain ⟨hleast, hmost⟩ := Bool.and_eq_true_iff.mp hn
      exact ⟨_, Shape.range type (of_decide_eq_true hleast) (of_decide_eq_true hmost),
        List.length_replicate⟩
    · intro hparts
      rcases hparts with ⟨types', hshape, hlength⟩
      cases hshape with
      | range _ hleast hmost =>
        rw [List.length_replicate] at hlength
        subst hlength
        exact Bool.and_eq_true_iff.mpr ⟨decide_eq_true hleast, decide_eq_true hmost⟩

/-- At each place of a shape its type is asked for. -/
theorem demand?_of_shape (h : arity.Shape types) {i : Nat} (hi : i < types.length) (n : Nat) :
    arity.demand? i n = types[i]?.map .exactly := by
  cases h with
  | fixed => rfl
  | range type hleast hmost =>
    rw [List.length_replicate] at hi
    show some (Demand.exactly type) = _
    rw [List.getElem?_replicate_of_lt hi]
    rfl

end Arity

namespace Operator

/-- The first operand that is not accepted is the one reported. -/
theorem firstMismatch?_eq_some {arity : Arity} {count index i : Nat} {xs : List Operand}
    {x : Operand} {demand : Demand} (hx : xs[i]? = some x)
    (hdemand : arity.demand? (index + i) count = some demand) (hnot : demand.accepts x = false)
    (hbefore : ∀ j y demand', j < i → xs[j]? = some y →
      arity.demand? (index + j) count = some demand' → demand'.accepts y = true) :
    firstMismatch? arity count index xs = some (index + i, demand, x) := by
  induction xs generalizing index i with
  | nil => exact absurd hx (by simp)
  | cons y ys ih =>
    rw [firstMismatch?]
    cases i with
    | zero =>
      obtain rfl := Option.some.inj hx
      rw [Nat.add_zero] at hdemand
      simp [hdemand, hnot]
    | succ i =>
      have hshift : ∀ k, index + 1 + k = index + (k + 1) := by
        intro k
        omega
      have hrest : firstMismatch? arity count (index + 1) ys = some (index + (i + 1), demand, x) := by
        rw [← hshift i]
        apply ih (by simpa using hx) (by rwa [hshift])
        intro j z demand' hj hz hd
        rw [hshift] at hd
        exact hbefore (j + 1) z demand' (Nat.succ_lt_succ hj) (by simpa using hz) hd
      cases hfirst : arity.demand? index count with
      | none => exact hrest
      | some demand' =>
        have haccepts := hbefore 0 y demand' (Nat.succ_pos i) rfl (by rwa [Nat.add_zero])
        simp only [haccepts, if_true]
        exact hrest

variable {op : Operator} {xs : List Operand} {spans : List Span} {place : Span}

/-- A number of operands that no shape has is reported, whatever the operands are. -/
theorem check_eq_arity (hshapes : op.arity.HasShapes)
    (h : ∀ types, op.arity.Shape types → types.length ≠ xs.length) :
    op.check xs spans place =
      .error (.arity ((spans.head?.map (·.join place)).getD place) op.keyword op.arity
        xs.length) := by
  have hcount : ¬ op.arity.acceptsCount xs.length = true := by
    intro hcount
    obtain ⟨types, hshape, hlength⟩ := (Arity.acceptsCount_iff hshapes).mp hcount
    exact h types hshape hlength
  unfold check
  exact if_neg hcount

section Shape

variable {types : List OperandType} (hshapes : op.arity.HasShapes)
  (hshape : op.arity.Shape types) (hlength : types.length = xs.length)

include hshapes hshape hlength

/-- Of operands in the right number, the first one that is not of its type is reported. -/
theorem check_eq_type {i : Nat} {x : Operand} {type : OperandType}
    (h : Operand.FirstMisfit xs types i x type) :
    op.check xs spans place =
      .error (.type (spans[i]?.getD place) op.keyword i (.exactly type) x.kind) := by
  have hcount := (Arity.acceptsCount_iff hshapes).mpr ⟨types, hshape, hlength⟩
  -- a place before the misfit has a type, and its operand is of this type
  have hdemands : ∀ j y demand', j < i → xs[j]? = some y →
      op.arity.demand? (0 + j) xs.length = some demand' → demand'.accepts y = true := by
    intro j y demand' hj hy hdemand'
    obtain ⟨hin, -⟩ := List.getElem?_eq_some_iff.mp hy
    rw [Nat.zero_add, Arity.demand?_of_shape hshape (by omega)] at hdemand'
    obtain ⟨type', htype', rfl⟩ := Option.map_eq_some_iff.mp hdemand'
    exact h.before j y type' hj hy htype'
  have hdemand : op.arity.demand? (0 + i) xs.length = some (.exactly type) := by
    obtain ⟨hin, -⟩ := List.getElem?_eq_some_iff.mp h.type_eq
    rw [Nat.zero_add, Arity.demand?_of_shape hshape hin, h.type_eq]
    rfl
  have hfirst := firstMismatch?_eq_some h.operand_eq hdemand h.refused hdemands
  rw [Nat.zero_add] at hfirst
  simp only [check, hcount, if_true, hfirst]

/-- Operands of the right types are let through. -/
theorem check_eq_ok (h : Operand.AreOf xs types) : op.check xs spans place = .ok () := by
  rw [check_eq_ok_iff]
  refine ⟨(Arity.acceptsCount_iff hshapes).mpr ⟨types, hshape, hlength⟩, ?_⟩
  intro i x demand hx hdemand
  obtain ⟨hin, -⟩ := List.getElem?_eq_some_iff.mp hx
  rw [Arity.demand?_of_shape hshape (by omega)] at hdemand
  obtain ⟨type, htype, rfl⟩ := Option.map_eq_some_iff.mp hdemand
  exact h i x type hx htype

end Shape

/-! ## Calls as text -/

/-- The call of the operator with some operands. It lies where its text does. -/
def call (op : Operator) (xs : List Operand) : Invocation where
  production := op.production
  keyword := op.keyword
  category := some op.category
  operands := xs
  span := ⟨0, (Utf8.encode (String.join (xs.map fun x => x.text ++ " ") ++ op.keyword)).length⟩

/-- The keywords of the catalog are words that are read as operators. -/
theorem spells_catalog (h : op ∈ catalog) :
    Reading.Spells (Utf8.encode op.keyword) (.operator op.keyword) := by
  have hall : ∀ op ∈ catalog, (Utf8.encode op.keyword).all Byte.isRegular = true ∧
      (Utf8.encode op.keyword).head?.all (!Numeral.isLead ·) = true ∧
      Utf8.encode op.keyword ≠ [] ∧
      Reading.keyword (Utf8.decode (Utf8.encode op.keyword)) = .operator op.keyword := by
    decide +kernel
  obtain ⟨hregular, hlead, hne, hkeyword⟩ := hall op h
  exact Reading.spells_word hregular hlead hne hkeyword

/-- An operator of the catalog is found by its keyword. -/
theorem lookup?_catalog (h : op ∈ catalog) : lookup? op.keyword = some op := by
  have hall : ∀ op ∈ catalog, lookup? op.keyword = some op := by decide +kernel
  exact hall op h

/-- Only one operator is followed by image data, and it has no shapes. -/
theorem keyword_ne_of_hasShapes (h : op ∈ catalog) (hshapes : op.arity.HasShapes) :
    op.keyword ≠ "ID" := by
  have hall : ∀ op ∈ catalog, op.keyword = "ID" → op.arity = .keyValuePairs := by decide +kernel
  intro hid
  rw [hall op h hid] at hshapes
  cases hshapes

end Operator

namespace Recognizer

/-- An operator of the catalog is read on its own as a single operator. -/
theorem start_catalog {op : Operator} (h : op ∈ Operator.catalog) :
    op.production ≠ .pathConstruction ∧
      start op.production = .within (.single op.production) [] := by
  have hall : ∀ op ∈ Operator.catalog,
      op.production.isGroup = false ∧ op.production ≠ .unknownOperator := by
    decide +kernel
  obtain ⟨hgroup, hknown⟩ := hall op h
  cases hp : op.production <;> simp_all [Production.isGroup, start]

end Recognizer

namespace Node

/-- What a call without anything else is read as: an invocation, or the error of its only
    phrase. -/
theorem parseAs_of_phrase {op : Operator} (hop : op ∈ Operator.catalog) {bytes : List UInt8}
    {ph : Phrase} {eof : Token} (hfeed : Feed.ofBytes bytes = .phrase ph (.finish [] eof))
    (heof : eof.lexeme = .eof) :
    parseAs op.production bytes =
      mapBoth Failure.error .invocation (ph.invocation 28 op.production) := by
  obtain ⟨hpath, hstart⟩ := Recognizer.start_catalog hop
  have hrun : Recognizer.read Profile.default.options op.production (Feed.ofBytes bytes) =
      mapBoth (fun e => (e.error, ph.leave e.left (.finish [] eof)))
        (fun call => (.invocation call, .finish [] eof)) (ph.invocation 28 op.production) := by
    -- a single operator is complete after its phrase
    have hstep : Recognizer.step Profile.default.options ph (.within (.single op.production) []) =
        mapBoth id (fun call => Progress.done (.invocation call))
          (ph.invocation 28 op.production) := by
      show ph.invocation 28 op.production >>= _ = _
      cases ph.invocation 28 op.production <;> rfl
    unfold Recognizer.read
    rw [if_neg hpath, hstart, hfeed, Recognizer.run, hstep]
    cases ph.invocation 28 op.production <;> rfl
  unfold parseAs Recognizer.readAll
  rw [hrun]
  cases ph.invocation 28 op.production with
  | error e => rfl
  | ok call => simp [mapBoth, Recognizer.expectEnd, Feed.head, heof]

end Node

namespace Operator

variable {op : Operator} {xs : List Operand}

/-- What is written for a call: its operands with a space after each, then its keyword. -/
theorem encode_text_call (op : Operator) (hxs : ∀ x ∈ xs, x.Writable) :
    Utf8.encode (op.call xs).text =
      (xs.flatMap fun x => x.latin1 ++ [0x20]) ++ Utf8.encode op.keyword := by
  show Utf8.encode (String.join (xs.map fun x => x.text ++ " ") ++ op.keyword) = _
  have hoperands : xs.map (fun x => Utf8.encode (x.text ++ " ")) =
      xs.map fun x => x.latin1 ++ [0x20] := by
    apply List.map_congr_left
    intro x hx
    rw [Utf8.encode_append, (hxs x hx).encode_text]
    rfl
  rw [Utf8.encode_append, Utf8.encode_join, List.flatMap_map, List.flatMap_def, hoperands,
    List.flatMap_def]

/-- A call lies from its first operand, or from its keyword, to the end of the keyword. -/
theorem callSpan_placed {start stop : Nat} (hxs : ∀ x ∈ xs, x.Writable)
    (hstart : start = (xs.flatMap fun x => x.latin1 ++ [0x20]).length) (hstop : start ≤ stop) :
    callSpan (Operand.placed 0 xs) ⟨start, stop⟩ = ⟨0, stop⟩ := by
  match xs with
  | [] =>
    rw [hstart]
    rfl
  | x :: rest =>
    have hx := hxs x List.mem_cons_self
    rw [List.flatMap_cons, List.length_append, List.length_append] at hstart
    show Span.mk (min 0 start) (max (0 + (Utf8.encode x.text).length) stop) = _
    rw [hx.encode_text, Nat.zero_min, Nat.max_eq_right (by omega)]

/-- The phrase of a call, with its operands where they are written. -/
theorem exists_phrase_of_call (hop : op ∈ catalog) (hid : op.keyword ≠ "ID")
    (hxs : ∀ x ∈ xs, x.Writable) :
    ∃ ph eof, Feed.ofBytes (Utf8.encode (op.call xs).text) = .phrase ph (.finish [] eof) ∧
      eof.lexeme = .eof ∧ ph.keyword = op.keyword ∧
      ph.operands 28 = .ok (Operand.placed 0 xs) ∧
      callSpan (Operand.placed 0 xs) ph.place = (op.call xs).span := by
  obtain ⟨ts, start, hstart, hreach, hts⟩ := Operand.exists_areOperands_placed hxs
    (spells_catalog hop) (by simp) (by simpa using hid) 0
  rw [← encode_text_call op hxs] at hreach
  have hfeed := Lexer.ofScan_of_reaches hreach
  have heof : Lexer.next ⟨[], start + (Utf8.encode op.keyword).length, false⟩ = (.ok ⟨.eof,
      ⟨start + (Utf8.encode op.keyword).length, start + (Utf8.encode op.keyword).length⟩⟩, _) :=
    rfl
  rw [Lexer.ofLexer_finish heof rfl, Recognizer.ofTokens_operator
    (noOperator_of_areOperands hts) rfl] at hfeed
  refine ⟨_, _, hfeed, rfl, rfl, Phrase.operands_eq_ok_iff.mpr hts, ?_⟩
  rw [Nat.zero_add] at hstart
  rw [callSpan_placed hxs hstart (Nat.le_add_right start _)]
  show _ = Span.mk 0 (Utf8.encode (op.call xs).text).length
  rw [encode_text_call op hxs, List.length_append, ← hstart]

/-- A call is answered by the check of its operands. -/
theorem exists_check_of_call (hop : op ∈ catalog) (hshapes : op.arity.HasShapes)
    (hxs : ∀ x ∈ xs, x.Writable) :
    ∃ place, callSpan (Operand.placed 0 xs) place = (op.call xs).span ∧
      Node.parseAs op.production (Utf8.encode (op.call xs).text) =
        mapBoth id (fun _ => .invocation (op.call xs))
          (op.check xs ((Operand.placed 0 xs).map (·.2)) place) := by
  obtain ⟨ph, eof, hfeed, heof, hkeyword, hoperands, hspan⟩ :=
    exists_phrase_of_call hop (keyword_ne_of_hasShapes hop hshapes) hxs
  refine ⟨ph.place, hspan, ?_⟩
  rw [Node.parseAs_of_phrase hop hfeed heof]
  have hlookup : ph.operator?.filter (·.production = op.production) = some op := by
    rw [Phrase.operator?, hkeyword, lookup?_catalog hop]
    simp
  have hcall : ph.invoke op.production (some op.category) (Operand.placed 0 xs) = op.call xs := by
    rw [Phrase.invoke_eq, Operand.map_fst_placed, hspan, hkeyword]
    rfl
  unfold Phrase.invocation
  simp only [hoperands, hlookup, hcall, Operand.map_fst_placed]
  cases op.check xs ((Operand.placed 0 xs).map (·.2)) ph.place <;> rfl

end Operator

/-! ## Main result -/

namespace Node

variable {op : Operator} {xs : List Operand}

/-- **Calls**: the text of a call, read as the production of its operator, is answered by
    the number of the operands first, then by the first operand that is not of its type,
    and otherwise by the call itself. -/
theorem parseAs_call (hop : op ∈ Operator.catalog) (hshapes : op.arity.HasShapes)
    (hxs : ∀ x ∈ xs, x.Writable) :
    ((∀ types, op.arity.Shape types → types.length ≠ xs.length) →
      parseAs op.production (Utf8.encode (op.call xs).text) =
        .error (.arity (op.call xs).span op.keyword op.arity xs.length)) ∧
    ∀ types, op.arity.Shape types → types.length = xs.length →
      (∀ i x type s, Operand.FirstMisfit xs types i x type →
        (Operand.placed 0 xs)[i]? = some (x, s) →
        parseAs op.production (Utf8.encode (op.call xs).text) =
          .error (.type s op.keyword i (.exactly type) x.kind) ∧
        s.slice (Utf8.encode (op.call xs).text) = Utf8.encode x.text) ∧
      (Operand.AreOf xs types →
        parseAs op.production (Utf8.encode (op.call xs).text) = .ok (.invocation (op.call xs))) := by
  obtain ⟨place, hspan, hanswer⟩ := Operator.exists_check_of_call hop hshapes hxs
  rw [hanswer]
  refine ⟨?_, ?_⟩
  · intro hcount
    rw [Operator.check_eq_arity hshapes hcount, ← hspan]
    cases Operand.placed 0 xs <;> rfl
  intro types hshape hlength
  refine ⟨?_, ?_⟩
  · intro i x type s hmisfit hplaced
    refine ⟨?_, ?_⟩
    · rw [Operator.check_eq_type hshapes hshape hlength hmisfit, List.getElem?_map, hplaced]
      rfl
    · rw [Operator.encode_text_call op hxs]
      exact Operand.slice_of_mem_placed hxs [] _ (List.mem_of_getElem? hplaced)
  · intro hof
    rw [Operator.check_eq_ok hshapes hshape hlength hof]
    rfl

/-- A dash pattern without a phase, with a name as its phase, and with a real. -/
theorem parseAs_call_dash :
    let types := [OperandType.numberArray, .number]
    let dash : Operator := ⟨"d", .generalGraphicsState, .dashPattern, .fixed types⟩
    let pattern := Operand.array [.integer 3, .real (.ofInt 2)]
    let phase := Operand.real (.ofRatio true 1 2)
    dash ∈ Operator.catalog ∧ (∀ x ∈ [pattern, phase, .name "a b"], x.Writable) ∧
    parseAs .dashPattern (Utf8.encode (dash.call [pattern]).text) =
      .error (.arity ⟨0, 9⟩ "d" dash.arity 1) ∧
    parseAs .dashPattern (Utf8.encode (dash.call [pattern, .name "a b"]).text) =
      .error (.type ⟨8, 14⟩ "d" 1 (.exactly .number) .name) ∧
    parseAs .dashPattern (Utf8.encode (dash.call [pattern, phase]).text) =
      .ok (.invocation (dash.call [pattern, phase])) := by
  intro types dash pattern phase
  have hdash : dash ∈ Operator.catalog := by decide
  have hshapes : dash.arity.HasShapes := Arity.HasShapes.fixed types
  have hshape : dash.arity.Shape types := Arity.Shape.fixed types
  have hxs : ∀ x ∈ [pattern, phase, .name "a b"], x.Writable := by decide +kernel
  refine ⟨hdash, hxs, ?_, ?_, ?_⟩
  · have hcount : ∀ types', dash.arity.Shape types' → types'.length ≠ [pattern].length := by
      intro types' hshape'
      cases hshape'
      decide
    have hspan : (dash.call [pattern]).span = ⟨0, 9⟩ := by decide +kernel
    have hone : ∀ x ∈ [pattern], x.Writable := by simp [hxs]
    have hanswer := (parseAs_call hdash hshapes hone).1 hcount
    rw [hspan] at hanswer
    exact hanswer
  · have hmisfit : Operand.FirstMisfit [pattern, .name "a b"] types 1 (.name "a b") .number := by
      refine ⟨rfl, rfl, rfl, ?_⟩
      intro j y type hj hy htype
      obtain rfl : j = 0 := by omega
      obtain rfl := Option.some.inj hy
      obtain rfl := Option.some.inj htype
      rfl
    have hplaced : (Operand.placed 0 [pattern, .name "a b"])[1]? =
        some (.name "a b", ⟨8, 14⟩) := by
      have hpattern : (Utf8.encode pattern.text).length = 7 := by decide +kernel
      have hname : (Utf8.encode (Operand.name "a b").text).length = 6 := by decide +kernel
      simp only [Operand.placed, hpattern, hname]
      rfl
    have htwo : ∀ x ∈ [pattern, .name "a b"], x.Writable := by simp [hxs]
    exact (((parseAs_call hdash hshapes htwo).2 types hshape rfl).1 _ _ _ _ hmisfit hplaced).1
  · have hof : Operand.AreOf [pattern, phase] types := by
      intro i x type hx htype
      match i with
      | 0 =>
        obtain rfl := Option.some.inj hx
        obtain rfl := Option.some.inj htype
        rfl
      | 1 =>
        obtain rfl := Option.some.inj hx
        obtain rfl := Option.some.inj htype
        rfl
    have htwo : ∀ x ∈ [pattern, phase], x.Writable := by simp [hxs]
    exact ((parseAs_call hdash hshapes htwo).2 types hshape rfl).2 hof

end Node

end PageContent
