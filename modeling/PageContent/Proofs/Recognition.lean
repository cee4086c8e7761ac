import PageContent.Proofs.Phrasing

/-! # The recogniser, against the grammar

    The recogniser accepts exactly the content streams of the grammar, and
    builds exactly their trees.

    * **Settings of frames**: the open frames determine the setting of the next
      item.
    * **Demands**: `IsPart` says what an incomplete item still asks of the
      tokens, `Finishes` what open frames ask. Together they say what a state
      asks: `RecognizerState.Demands`.
    * **One step** meets the demand of a state if and only if it leads to a
      state whose demand the remaining tokens meet. This gives soundness and
      completeness at once, by induction on the phrases.
-/

namespace PageContent

open Grammar

/-! ## Settings of frames -/

namespace Frame

/-- The setting of an item inside frames. -/
def setting (o : Options) (frames : List Frame) : Setting :=
  ⟨level frames, inCompatibility frames, o.nestingLimit - depth frames⟩

/-- A new section changes the setting as the grammar says. -/
theorem setting_within (o : Options) (s : Section) (nodes : List Node) (outer : List Frame) :
    setting o (⟨.within s, nodes⟩ :: outer) = (setting o outer).inside s := by
  have hdepth : depth (⟨.within s, nodes⟩ :: outer) = depth outer + 1 := by
    simp [depth]
  unfold setting
  rw [hdepth, ← Nat.sub_sub]
  cases s <;> simp [Setting.inside, level, inCompatibility]

end Frame

/-! ## Roles -/

namespace Section

/-- The category of the operators that open and close a section. -/
def category : Section → Category
  | textObject => .textObject
  | stateBlock => .specialGraphicsState
  | markedContent => .markedContent
  | compatibility => .compatibility

end Section

namespace Operator

/-- An opening operator is in the category of its section. -/
theorem category_of_opening {op : Operator} (hop : op ∈ catalog) {s : Section}
    (h : op.production = s.opening) : op.category = s.category := by
  have hall : ∀ op ∈ catalog, ∀ s ∈ [Section.textObject, .stateBlock, .markedContent,
      .compatibility], op.production = s.opening → op.category = s.category := by decide +kernel
  exact hall op hop s (by cases s <;> simp) h

/-- A closing operator is in the category of its section. -/
theorem category_of_closing {op : Operator} (hop : op ∈ catalog) {s : Section}
    (h : op.production = s.closing) : op.category = s.category := by
  have hall : ∀ op ∈ catalog, ∀ s ∈ [Section.textObject, .stateBlock, .markedContent,
      .compatibility], op.production = s.closing → op.category = s.category := by decide +kernel
  exact hall op hop s (by cases s <;> simp) h

/-- The operators of an inline image are in its category. -/
theorem category_of_beginInlineImage {op : Operator} (hop : op ∈ catalog)
    (h : op.production = .beginInlineImage) : op.category = .inlineImage := by
  have hall : ∀ op ∈ catalog, op.production = .beginInlineImage → op.category = .inlineImage := by
    decide +kernel
  exact hall op hop h

theorem role_of_isSingle {op : Operator} {level : Level} {glyph : Bool}
    (h : isSingle level glyph op = true) :
    op.role level glyph = .begins (.single op.production) := by
  unfold isSingle at h
  unfold role
  cases hc : op.category <;> cases level <;> simp [hc] at h ⊢ <;> simp [h]

theorem role_of_opening {op : Operator} (hop : op ∈ catalog) {s : Section} {level : Level}
    {glyph : Bool} (h : op.production = s.opening)
    (hlevel : s = .textObject ∨ s = .stateBlock → level = .page) :
    op.role level glyph = .begins (.opening s) := by
  have hc := category_of_opening hop h
  unfold role
  cases s <;> simp [Section.category, Section.opening] at hc h hlevel <;> simp [hc, h, hlevel]

theorem role_of_closing {op : Operator} (hop : op ∈ catalog) {s : Section} {level : Level}
    {glyph : Bool} (h : op.production = s.closing) : op.role level glyph = .outOfPlace := by
  have hc := category_of_closing hop h
  unfold role
  cases s <;> cases level <;> simp [Section.category, Section.closing] at hc h <;> simp [hc, h]

theorem role_of_pathConstruction {op : Operator} {glyph : Bool}
    (h : op.category = .pathConstruction) :
    op.role .page glyph = .begins (.path [] none) := by
  simp [role, h]

theorem role_of_beginInlineImage {op : Operator} (hop : op ∈ catalog) {glyph : Bool}
    (h : op.production = .beginInlineImage) : op.role .page glyph = .begins .image := by
  simp [role, category_of_beginInlineImage hop h, h]

/-- The parts that operators begin, and where. -/
inductive MayBegin (op : Operator) (level : Level) (glyph : Bool) : Part → Prop where
  | single (h : isSingle level glyph op = true) : MayBegin op level glyph (.single op.production)
  | opening {s : Section} (h : op.production = s.opening)
      (hlevel : s = .textObject ∨ s = .stateBlock → level = .page) :
      MayBegin op level glyph (.opening s)
  | path (h : op.category = .pathConstruction) (hlevel : level = .page) :
      MayBegin op level glyph (.path [] none)
  | image (h : op.production = .beginInlineImage) (hlevel : level = .page) :
      MayBegin op level glyph .image

/-- Roles begin no other parts. -/
theorem mayBegin_of_role {op : Operator} {level : Level} {glyph : Bool} {part : Part}
    (h : op.role level glyph = .begins part) : MayBegin op level glyph part := by
  have hsingle : isSingle level glyph op = true → Role.begins (.single op.production) =
      .begins part → MayBegin op level glyph part := by
    intro hop heq
    obtain rfl := Role.begins.inj heq
    exact MayBegin.single hop
  have hopening : ∀ s : Section, op.production = s.opening →
      (s = .textObject ∨ s = .stateBlock → level = .page) →
      Role.begins (.opening s) = .begins part → MayBegin op level glyph part := by
    intro s hop hlevel heq
    obtain rfl := Role.begins.inj heq
    exact MayBegin.opening hop hlevel
  -- the role goes by category; in some the level or the production matters too
  unfold role at h
  cases hc : op.category with
  | pathPainting | clippingPath => simp [hc] at h
  | generalGraphicsState | color | textState =>
    exact hsingle (by simp [isSingle, hc]) (by simpa [hc] using h)
  | markedContent =>
    simp only [hc] at h
    split at h
    · next hp => exact hopening .markedContent hp (by simp) h
    · split at h
      · next hp => exact hsingle (by simp [isSingle, hc, hp]) h
      · exact absurd h (by simp)
  | compatibility =>
    simp only [hc] at h
    split at h
    · next hp => exact hopening .compatibility hp (by simp) h
    · exact absurd h (by simp)
  | pathConstruction =>
    cases level <;> simp [hc] at h
    subst h
    exact MayBegin.path hc rfl
  | specialGraphicsState =>
    cases level <;> simp only [hc, reduceCtorEq] at h
    split at h
    · next hp => exact hopening .stateBlock hp (fun _ => rfl) h
    · split at h
      · next hp => exact hsingle (by simp [isSingle, hc, hp]) h
      · exact absurd h (by simp)
  | textObject =>
    cases level <;> simp only [hc, reduceCtorEq] at h
    split at h
    · next hp => exact hopening .textObject hp (fun _ => rfl) h
    · exact absurd h (by simp)
  | inlineImage =>
    cases level <;> simp only [hc, reduceCtorEq] at h
    split at h
    · next hp =>
      obtain rfl := Role.begins.inj h
      exact MayBegin.image hp rfl
    · exact absurd h (by simp)
  | type3Font =>
    cases level <;> simp only [hc, reduceCtorEq] at h
    split at h
    · next hglyph => exact hsingle (by simp [isSingle, hc, hglyph]) h
    · exact absurd h (by simp)
  | shadingPattern | xObject | textPositioning | textShowing =>
    cases level <;> simp only [hc, reduceCtorEq] at h
    exact hsingle (by simp [isSingle, hc]) h

end Operator

/-! ## Demands -/

/-- `IsPart o w part ts rest n`: in the setting `w` the tokens `ts` begin with
    what the part still lacks. The item is `n` then, and `rest` comes after it. -/
inductive IsPart (o : Options) (w : Setting) :
    Part → List Token → List Token → Node → Prop where
  | single {p : Production} {ts rest : List Token} {call : Invocation}
      (hcall : IsCallOf o.nestingLimit p ts rest call) :
      IsPart o w (.single p) ts rest (.invocation call)
  | undefined {ts rest : List Token} {call : Invocation}
      (hcall : IsUncheckedCall o.nestingLimit ts rest call) :
      IsPart o w .undefined ts rest (.invocation call)
  | path {drawn more : List Invocation} {clip : Option Invocation} {paint : Invocation}
      {ts us vs rest : List Token}
      (hmore : AreDrawn o.nestingLimit ts us more) (hne : drawn.reverse ++ more ≠ [])
      (hclip : IsClip o.nestingLimit us vs clip) (hpaint : IsPaint o.nestingLimit vs rest paint) :
      IsPart o w (.path drawn none) ts rest (pathNode (drawn.reverse ++ more) clip paint)
  | clipped {drawn : List Invocation} {clip paint : Invocation} {ts rest : List Token}
      (hne : drawn ≠ []) (hpaint : IsPaint o.nestingLimit ts rest paint) :
      IsPart o w (.path drawn (some clip)) ts rest (pathNode drawn.reverse (some clip) paint)
  | image {begin data fin : Invocation} {ts us vs rest : List Token}
      (hbegin : IsCallOf o.nestingLimit .beginInlineImage ts us begin)
      (hdata : IsCallOf o.nestingLimit .inlineImageData us vs data)
      (hfin : IsCallOf o.nestingLimit .endInlineImage vs rest fin) :
      IsPart o w .image ts rest (.ofChildren .inlineImage ([begin, data, fin].map .invocation))
  | imageData {begin data fin : Invocation} {ts us rest : List Token}
      (hdata : IsCallOf o.nestingLimit .inlineImageData ts us data)
      (hfin : IsCallOf o.nestingLimit .endInlineImage us rest fin) :
      IsPart o w (.imageData begin) ts rest
        (.ofChildren .inlineImage ([begin, data, fin].map .invocation))
  | imageEnd {begin data fin : Invocation} {ts rest : List Token}
      (hfin : IsCallOf o.nestingLimit .endInlineImage ts rest fin) :
      IsPart o w (.imageEnd begin data) ts rest
        (.ofChildren .inlineImage ([begin, data, fin].map .invocation))
  | closed {s : Section} {ts us vs rest : List Token} {opening closing : Invocation}
      {ns : List Node} (hroom : 0 < w.room)
      (hopening : IsCallOf o.nestingLimit s.opening ts us opening)
      (hns : AreItems o (w.inside s) false us vs ns)
      (hclosing : IsCallOf o.nestingLimit s.closing vs rest closing) :
      IsPart o w (.opening s) ts rest
        (.ofChildren s.production (.invocation opening :: ns ++ [.invocation closing]))
  | unclosed {ts us : List Token} {opening : Invocation} {ns : List Node}
      (ho : o.unclosedStates) (hroom : 0 < w.room)
      (hopening : IsCallOf o.nestingLimit .saveState ts us opening)
      (hns : AreItems o (w.inside .stateBlock) false us [] ns) :
      IsPart o w (.opening .stateBlock) ts []
        (.ofChildren .graphicsStateBlock (.invocation opening :: ns))

mutual

/-- `Finishes o top outer ts rest n`: between two items of the frame `top`, the
    tokens `ts` begin with all that the frames lack. The outermost of them is `n`
    then, and `rest` comes after it. -/
inductive Finishes (o : Options) :
    Frame → List Frame → List Token → List Token → Node → Prop where
  | stream {nodes ns : List Node} {outer : List Frame} {ts : List Token}
      (hns : AreItems o (Frame.setting o (⟨.stream, nodes⟩ :: outer))
        (Frame.isFresh ⟨.stream, nodes⟩) ts [] ns) :
      Finishes o ⟨.stream, nodes⟩ outer ts [] (Frame.node ⟨.stream, ns.reverse ++ nodes⟩)
  | closed {s : Section} {nodes ns : List Node} {outer : List Frame} {ts us vs rest : List Token}
      {closing : Invocation} {n : Node}
      (hns : AreItems o (Frame.setting o (⟨.within s, nodes⟩ :: outer)) false ts us ns)
      (hclosing : IsCallOf o.nestingLimit s.closing us vs closing)
      (hrest : Resumes o outer
        (Frame.node ⟨.within s, .invocation closing :: (ns.reverse ++ nodes)⟩) vs rest n) :
      Finishes o ⟨.within s, nodes⟩ outer ts rest n
  | unclosed {nodes ns : List Node} {outer : List Frame} {ts rest : List Token} {n : Node}
      (ho : o.unclosedStates)
      (hns : AreItems o (Frame.setting o (⟨.within .stateBlock, nodes⟩ :: outer)) false ts [] ns)
      (hrest : Resumes o outer (Frame.node ⟨.within .stateBlock, ns.reverse ++ nodes⟩) [] rest n) :
      Finishes o ⟨.within .stateBlock, nodes⟩ outer ts rest n

/-- What frames lack once an item in them is complete. -/
inductive Resumes (o : Options) :
    List Frame → Node → List Token → List Token → Node → Prop where
  | done {n : Node} {ts : List Token} : Resumes o [] n ts ts n
  | inside {f : Frame} {outer : List Frame} {item n : Node} {ts rest : List Token}
      (h : Finishes o (f.push item) outer ts rest n) :
      Resumes o (f :: outer) item ts rest n

end

/-- What a recogniser still asks of the tokens. -/
def RecognizerState.Demands (o : Options) :
    RecognizerState → List Token → List Token → Node → Prop
  | .between top outer, ts, rest, n => Finishes o top outer ts rest n
  | .within part outer, ts, rest, n =>
    ∃ us item, IsPart o (Frame.setting o outer) part ts us item ∧ Resumes o outer item us rest n

/-- What is asked of the tokens after a step. -/
def Progress.Demands (o : Options) :
    Progress → List Token → List Token → Node → Prop
  | .more state, ts, rest, n => state.Demands o ts rest n
  | .done m, ts, rest, n => rest = ts ∧ n = m

/-! ## Steps of parts -/

/-- A computation that goes on has succeeded up to there. -/
theorem bind_eq_ok_iff {α β ε : Type} {x : Except ε α} {f : α → Except ε β} {b : β} :
    (x >>= f) = .ok b ↔ ∃ a, x = .ok a ∧ f a = .ok b := by
  cases x with
  | error e => simp [bind, Except.bind]
  | ok a => simp [bind, Except.bind]

namespace Operator

/-- The category of an operator that ends a path. -/
theorem category_of_paint {op : Operator} (hop : op ∈ catalog)
    (h : op.production = .pathPainting ∨ op.production = .endPath) :
    op.category = .pathPainting := by
  have hall : ∀ op ∈ catalog, op.production = .pathPainting ∨ op.production = .endPath →
      op.category = .pathPainting := by decide +kernel
  exact hall op hop h

theorem category_of_clipping {op : Operator} (hop : op ∈ catalog)
    (h : op.production = .clipping) : op.category = .clippingPath := by
  have hall : ∀ op ∈ catalog, op.production = .clipping → op.category = .clippingPath := by
    decide +kernel
  exact hall op hop h

end Operator

namespace Recognizer

variable {o : Options} {ph : Phrase} {outer : List Frame} {ts rest : List Token} {n : Node}

theorem resumes_nil_iff {m : Node} : Resumes o [] m ts rest n ↔ rest = ts ∧ n = m := by
  constructor
  · intro h
    cases h with
    | done => exact ⟨rfl, rfl⟩
  · intro hparts
    rcases hparts with ⟨rfl, rfl⟩
    exact Resumes.done

theorem resumes_cons_iff {f : Frame} {m : Node} :
    Resumes o (f :: outer) m ts rest n ↔ Finishes o (f.push m) outer ts rest n := by
  constructor
  · intro h
    cases h with
    | inside h => exact h
  · exact Resumes.inside

theorem demands_deliver {m : Node} :
    (deliver m outer).Demands o ts rest n ↔ Resumes o outer m ts rest n := by
  cases outer with
  | nil => exact resumes_nil_iff.symm
  | cons f outer => exact resumes_cons_iff.symm

/-- A phrase ends a path if and only if its operator does. -/
theorem isPaint_iff (hph : ph.Proper) {us : List Token} {call : Invocation} :
    IsPaint o.nestingLimit (ph.tokens ++ ts) us call ↔
      us = ts ∧ ∃ op, ph.operator? = some op ∧
        (op.production = .pathPainting ∨ op.production = .endPath) ∧
        ph.invocation o.maxNesting op.production = .ok call := by
  constructor
  · intro hparts
    rcases hparts with ⟨hcall, hop⟩
    obtain ⟨rfl, hop', hcall⟩ := (Phrase.isCall_iff hph).mp hcall
    exact ⟨rfl, _, hop', hop, hcall⟩
  · intro hparts
    rcases hparts with ⟨rfl, op, hop', hop, hcall⟩
    exact IsPaint.mk ((Phrase.isCall_iff hph).mpr ⟨rfl, hop', hcall⟩) hop

/-! ### Paths -/

section

variable {w : Setting} {drawn : List Invocation} {op : Operator} {us vs : List Token}
  {call : Invocation}

/-- A path goes on after an operator that draws. -/
theorem isPart_of_draws (hcall : IsCall o.nestingLimit op us vs call)
    (hcategory : op.category = .pathConstruction)
    (h : IsPart o w (.path (call :: drawn) none) vs rest n) :
    IsPart o w (.path drawn none) us rest n := by
  cases h with
  | @path _ more clip paint _ _ _ _ hmore hne hclip hpaint =>
    have hpath : IsPart o w (.path drawn none) us rest
        (Grammar.pathNode (drawn.reverse ++ call :: more) clip paint) :=
      IsPart.path (AreDrawn.cons hcall hcategory hmore) (by simp) hclip hpaint
    simpa using hpath

/-- A path that is clipped must be painted. -/
theorem isPart_of_clips (hcall : IsCall o.nestingLimit op us vs call)
    (hp : op.production = .clipping) (h : IsPart o w (.path drawn (some call)) vs rest n) :
    IsPart o w (.path drawn none) us rest n := by
  cases h with
  | @clipped _ _ paint _ _ hne hpaint =>
    have hpath : IsPart o w (.path drawn none) us rest
        (Grammar.pathNode (drawn.reverse ++ []) (some call) paint) :=
      IsPart.path AreDrawn.nil (by simpa using hne) (IsClip.some hcall hp) hpaint
    simpa using hpath

/-- A path ends with the operator that paints it. -/
theorem isPart_of_paints (hpaint : IsPaint o.nestingLimit us rest call) (hdrawn : drawn ≠ []) :
    IsPart o w (.path drawn none) us rest (Grammar.pathNode drawn.reverse none call) := by
  have hpath : IsPart o w (.path drawn none) us rest
      (Grammar.pathNode (drawn.reverse ++ []) none call) :=
    IsPart.path AreDrawn.nil (by simpa using hdrawn) IsClip.none hpaint
  simpa using hpath

end

/-- What a path that has not been clipped lacks: an operator that draws, clips or
    paints, and what the path lacks then. -/
theorem cases_of_isPart_path {w : Setting} {drawn : List Invocation} {us : List Token}
    (h : IsPart o w (.path drawn none) us rest n) :
    (∃ op vs call, IsCall o.nestingLimit op us vs call ∧ op.category = .pathConstruction ∧
      IsPart o w (.path (call :: drawn) none) vs rest n) ∨
    (∃ op vs call, IsCall o.nestingLimit op us vs call ∧ op.production = .clipping ∧
      drawn ≠ [] ∧ IsPart o w (.path drawn (some call)) vs rest n) ∨
    ∃ call, IsPaint o.nestingLimit us rest call ∧ drawn ≠ [] ∧
      n = Grammar.pathNode drawn.reverse none call := by
  cases h with
  | @path _ more clip paint _ _ _ _ hmore hne hclip hpaint =>
    cases hmore with
    | nil =>
      -- nothing more is drawn
      have hdrawn : drawn ≠ [] := by simpa using hne
      rw [List.append_nil]
      cases hclip with
      | none => exact .inr (.inr ⟨paint, hpaint, hdrawn, rfl⟩)
      | some hcall hp =>
        exact .inr (.inl ⟨_, _, _, hcall, hp, hdrawn, IsPart.clipped hdrawn hpaint⟩)
    | @cons op _ _ _ call calls hcall hcategory hcalls =>
      have hne' : (call :: drawn).reverse ++ calls ≠ [] := by simp
      have hpath := IsPart.path (w := w) hcalls hne' hclip hpaint
      exact .inl ⟨op, _, call, hcall, hcategory, by simpa using hpath⟩

/-- A phrase in a path that has not been clipped. -/
theorem isPart_path_iff (hph : ph.Proper) {w : Setting} {drawn : List Invocation} :
    IsPart o w (.path drawn none) (ph.tokens ++ ts) rest n ↔
      ∃ op, ph.operator? = some op ∧ ∃ call, ph.invocation o.maxNesting op.production = .ok call ∧
        (op.category = .pathConstruction ∧ IsPart o w (.path (call :: drawn) none) ts rest n ∨
         op.production = .clipping ∧ drawn ≠ [] ∧
           IsPart o w (.path drawn (some call)) ts rest n ∨
         (op.production = .pathPainting ∨ op.production = .endPath) ∧ drawn ≠ [] ∧
           rest = ts ∧ n = Grammar.pathNode drawn.reverse none call) := by
  constructor
  · intro h
    rcases cases_of_isPart_path h with
      ⟨op, vs, call, hcall, hcategory, hpart⟩ | ⟨op, vs, call, hcall, hp, hdrawn, hpart⟩ |
      ⟨call, hpaint, hdrawn, rfl⟩
    · obtain ⟨rfl, hop, hinv⟩ := (Phrase.isCall_iff hph).mp hcall
      exact ⟨op, hop, call, hinv, .inl ⟨hcategory, hpart⟩⟩
    · obtain ⟨rfl, hop, hinv⟩ := (Phrase.isCall_iff hph).mp hcall
      exact ⟨op, hop, call, hinv, .inr (.inl ⟨hp, hdrawn, hpart⟩)⟩
    · obtain ⟨rfl, op, hop, hp, hinv⟩ := (isPaint_iff hph).mp hpaint
      exact ⟨op, hop, call, hinv, .inr (.inr ⟨hp, hdrawn, rfl, rfl⟩)⟩
  · intro hparts
    rcases hparts with ⟨op, hop, call, hinv, h⟩
    have hcall : IsCall o.nestingLimit op (ph.tokens ++ ts) ts call :=
      (Phrase.isCall_iff hph).mpr ⟨rfl, hop, hinv⟩
    rcases h with ⟨hcategory, hpart⟩ | ⟨hp, hdrawn, hpart⟩ | ⟨hp, hdrawn, rfl, rfl⟩
    · exact isPart_of_draws hcall hcategory hpart
    · exact isPart_of_clips hcall hp hpart
    · exact isPart_of_paints (IsPaint.mk hcall hp) hdrawn

/-- A phrase in a path that has been clipped must end it. -/
theorem isPart_clipped_iff (hph : ph.Proper) {w : Setting} {drawn : List Invocation}
    {clip : Invocation} :
    IsPart o w (.path drawn (some clip)) (ph.tokens ++ ts) rest n ↔
      ∃ op, ph.operator? = some op ∧ ∃ call, ph.invocation o.maxNesting op.production = .ok call ∧
        (op.production = .pathPainting ∨ op.production = .endPath) ∧ drawn ≠ [] ∧
          rest = ts ∧ n = Grammar.pathNode drawn.reverse (some clip) call := by
  constructor
  · intro h
    cases h with
    | clipped hne hpaint =>
      obtain ⟨rfl, op, hop, hp, hcall⟩ := (isPaint_iff hph).mp hpaint
      exact ⟨op, hop, _, hcall, hp, hne, rfl, rfl⟩
  · intro hparts
    rcases hparts with ⟨op, hop, call, hcall, hp, hne, rfl, rfl⟩
    exact IsPart.clipped hne ((isPaint_iff hph).mpr ⟨rfl, op, hop, hp, hcall⟩)

/-- A step in a path, one case for each kind of operator that may come. -/
theorem stepPath_eq_ok_iff {drawn : List Invocation} {clip : Option Invocation} {pr : Progress} :
    stepPath o.maxNesting ph outer drawn clip = .ok pr ↔
      ∃ op, ph.operator? = some op ∧ ∃ call, ph.invocation o.maxNesting op.production = .ok call ∧
        (op.category = .pathConstruction ∧ clip = none ∧
            .more (.within (.path (call :: drawn) none) outer) = pr ∨
         op.production = .clipping ∧ drawn ≠ [] ∧ clip = none ∧
            .more (.within (.path drawn (some call)) outer) = pr ∨
         (op.production = .pathPainting ∨ op.production = .endPath) ∧ drawn ≠ [] ∧
            deliver (Grammar.pathNode drawn.reverse clip call) outer = pr) := by
  unfold stepPath
  cases hop : ph.operator? with
  | none => simp
  | some op =>
    have hmem := Operator.mem_catalog_of_lookup? hop
    simp only [Option.some.injEq, exists_eq_left']
    by_cases hdraw : op.category = .pathConstruction
    · -- what draws neither clips nor paints
      have hclipping : op.production ≠ .clipping := by
        intro h
        rw [Operator.category_of_clipping hmem h] at hdraw
        exact absurd hdraw (by decide)
      have hpaint : ¬ (op.production = .pathPainting ∨ op.production = .endPath) := by
        intro h
        rw [Operator.category_of_paint hmem h] at hdraw
        exact absurd hdraw (by decide)
      cases clip with
      | none => simp [hdraw, hclipping, hpaint, bind_eq_ok_iff]
      | some clip => simp [hdraw, hclipping, hpaint]
    · by_cases hclipping : op.production = .clipping
      · have hpaint : ¬ (op.production = .pathPainting ∨ op.production = .endPath) := by
          simp [hclipping]
        cases clip with
        | none =>
          by_cases hdrawn : drawn = []
          · simp [hdraw, hclipping, hdrawn]
          · simp [hdraw, hclipping, hdrawn, bind_eq_ok_iff]
        | some clip => simp [hdraw, hclipping]
      · by_cases hdrawn : drawn = []
        · simp [hdraw, hclipping, hdrawn]
        · by_cases hpaint : op.production = .pathPainting ∨ op.production = .endPath
          · simp [hdraw, hclipping, hdrawn, hpaint, bind_eq_ok_iff, pathNode, Grammar.pathNode]
          · simp [hdraw, hclipping, hdrawn, hpaint]

theorem demands_path_iff (hph : ph.Proper) (drawn : List Invocation)
    (clip : Option Invocation) :
    (RecognizerState.within (.path drawn clip) outer).Demands o (ph.tokens ++ ts) rest n ↔
      ∃ pr, stepPath o.maxNesting ph outer drawn clip = .ok pr ∧ pr.Demands o ts rest n := by
  constructor
  · intro hparts
    rcases hparts with ⟨us, item, hpart, hres⟩
    cases clip with
    | none =>
      obtain ⟨op, hop, call, hinv, h | h | h⟩ := (isPart_path_iff hph).mp hpart
      · obtain ⟨hcategory, hpart⟩ := h
        refine ⟨_, stepPath_eq_ok_iff.mpr ⟨op, hop, call, hinv, .inl ⟨hcategory, rfl, rfl⟩⟩, ?_⟩
        exact ⟨us, item, hpart, hres⟩
      · obtain ⟨hp, hne, hpart⟩ := h
        refine ⟨_, stepPath_eq_ok_iff.mpr
          ⟨op, hop, call, hinv, .inr (.inl ⟨hp, hne, rfl, rfl⟩)⟩, ?_⟩
        exact ⟨us, item, hpart, hres⟩
      · obtain ⟨hp, hne, rfl, rfl⟩ := h
        refine ⟨_, stepPath_eq_ok_iff.mpr ⟨op, hop, call, hinv, .inr (.inr ⟨hp, hne, rfl⟩)⟩, ?_⟩
        exact demands_deliver.mpr hres
    | some clip =>
      obtain ⟨op, hop, call, hinv, hp, hne, rfl, rfl⟩ := (isPart_clipped_iff hph).mp hpart
      refine ⟨_, stepPath_eq_ok_iff.mpr ⟨op, hop, call, hinv, .inr (.inr ⟨hp, hne, rfl⟩)⟩, ?_⟩
      exact demands_deliver.mpr hres
  · intro hparts
    rcases hparts with ⟨pr, hstep, hpr⟩
    obtain ⟨op, hop, call, hinv, h | h | h⟩ := stepPath_eq_ok_iff.mp hstep
    · -- only a path that is not clipped may be drawn on or clipped
      obtain ⟨hcategory, rfl, rfl⟩ := h
      obtain ⟨us, item, hpart, hres⟩ := hpr
      exact ⟨us, item,
        (isPart_path_iff hph).mpr ⟨op, hop, call, hinv, .inl ⟨hcategory, hpart⟩⟩, hres⟩
    · obtain ⟨hp, hne, rfl, rfl⟩ := h
      obtain ⟨us, item, hpart, hres⟩ := hpr
      exact ⟨us, item,
        (isPart_path_iff hph).mpr ⟨op, hop, call, hinv, .inr (.inl ⟨hp, hne, hpart⟩)⟩, hres⟩
    · obtain ⟨hp, hne, rfl⟩ := h
      have hres := demands_deliver.mp hpr
      cases clip with
      | none =>
        exact ⟨ts, _, (isPart_path_iff hph).mpr
          ⟨op, hop, call, hinv, .inr (.inr ⟨hp, hne, rfl, rfl⟩)⟩, hres⟩
      | some clip =>
        exact ⟨ts, _, (isPart_clipped_iff hph).mpr ⟨op, hop, call, hinv, hp, hne, rfl, rfl⟩,
          hres⟩

/-! ### Single operators and inline images -/

/-- A phrase that is read as an invocation, after which reading goes on. -/
theorem reads_iff (hph : ph.Proper) {p : Production} {next : Invocation → Except Failure Progress}
    {Q : List Token → Invocation → Prop}
    (h : ∀ call, Q ts call ↔ ∃ pr, next call = .ok pr ∧ pr.Demands o ts rest n) :
    (∃ us call, IsCallOf o.nestingLimit p (ph.tokens ++ ts) us call ∧ Q us call) ↔
      ∃ pr, (ph.invocation o.maxNesting p >>= next) = .ok pr ∧ pr.Demands o ts rest n := by
  constructor
  · intro hparts
    rcases hparts with ⟨us, call, hcall, hQ⟩
    obtain ⟨rfl, hinv⟩ := (Phrase.isCallOf_iff hph).mp hcall
    obtain ⟨pr, hnext, hpr⟩ := (h call).mp hQ
    exact ⟨pr, bind_eq_ok_iff.mpr ⟨call, hinv, hnext⟩, hpr⟩
  · intro hparts
    rcases hparts with ⟨pr, hbind, hpr⟩
    obtain ⟨call, hinv, hnext⟩ := bind_eq_ok_iff.mp hbind
    exact ⟨ts, call, (Phrase.isCallOf_iff hph).mpr ⟨rfl, hinv⟩, (h call).mpr ⟨pr, hnext, hpr⟩⟩

section

variable {w : Setting} {us vs : List Token} {item : Node}

theorem isPart_single_iff {p : Production} :
    IsPart o w (.single p) us vs item ↔
      ∃ call, IsCallOf o.nestingLimit p us vs call ∧ item = .invocation call := by
  constructor
  · intro h
    cases h with
    | single hcall => exact ⟨_, hcall, rfl⟩
  · intro hparts
    rcases hparts with ⟨call, hcall, rfl⟩
    exact IsPart.single hcall

theorem isPart_image_iff :
    IsPart o w .image us vs item ↔
      ∃ ws call, IsCallOf o.nestingLimit .beginInlineImage us ws call ∧
        IsPart o w (.imageData call) ws vs item := by
  constructor
  · intro h
    cases h with
    | image hbegin hdata hfin => exact ⟨_, _, hbegin, IsPart.imageData hdata hfin⟩
  · intro hparts
    rcases hparts with ⟨ws, call, hbegin, hpart⟩
    cases hpart with
    | imageData hdata hfin => exact IsPart.image hbegin hdata hfin

theorem isPart_imageData_iff {begin : Invocation} :
    IsPart o w (.imageData begin) us vs item ↔
      ∃ ws call, IsCallOf o.nestingLimit .inlineImageData us ws call ∧
        IsPart o w (.imageEnd begin call) ws vs item := by
  constructor
  · intro h
    cases h with
    | imageData hdata hfin => exact ⟨_, _, hdata, IsPart.imageEnd hfin⟩
  · intro hparts
    rcases hparts with ⟨ws, call, hdata, hpart⟩
    cases hpart with
    | imageEnd hfin => exact IsPart.imageData hdata hfin

theorem isPart_imageEnd_iff {begin data : Invocation} :
    IsPart o w (.imageEnd begin data) us vs item ↔
      ∃ call, IsCallOf o.nestingLimit .endInlineImage us vs call ∧
        item = .ofChildren .inlineImage ([begin, data, call].map .invocation) := by
  constructor
  · intro h
    cases h with
    | imageEnd hfin => exact ⟨_, hfin, rfl⟩
  · intro hparts
    rcases hparts with ⟨call, hfin, rfl⟩
    exact IsPart.imageEnd hfin

end

/-- A part that lacks one operator is complete after it. -/
theorem demands_last_iff (hph : ph.Proper) {part : Part} {p : Production}
    {item : Invocation → Node}
    (hpart : ∀ us vs m, IsPart o (Frame.setting o outer) part us vs m ↔
      ∃ call, IsCallOf o.nestingLimit p us vs call ∧ m = item call) :
    (RecognizerState.within part outer).Demands o (ph.tokens ++ ts) rest n ↔
      ∃ pr, (ph.invocation o.maxNesting p >>= fun call => .ok (deliver (item call) outer)) =
        .ok pr ∧ pr.Demands o ts rest n := by
  refine Iff.trans ?_ (reads_iff hph
    (Q := fun us call => Resumes o outer (item call) us rest n) ?_)
  · constructor
    · intro hparts
      rcases hparts with ⟨us, m, hm, hres⟩
      obtain ⟨call, hcall, rfl⟩ := (hpart _ _ _).mp hm
      exact ⟨us, call, hcall, hres⟩
    · intro hparts
      rcases hparts with ⟨us, call, hcall, hres⟩
      exact ⟨us, _, (hpart _ _ _).mpr ⟨call, hcall, rfl⟩, hres⟩
  · intro call
    simp [demands_deliver]

/-- A part that lacks an operator and what another part lacks goes on as this part
    after it. -/
theorem demands_next_iff (hph : ph.Proper) {part : Part} {p : Production}
    {next : Invocation → Part}
    (hpart : ∀ us vs m, IsPart o (Frame.setting o outer) part us vs m ↔
      ∃ ws call, IsCallOf o.nestingLimit p us ws call ∧
        IsPart o (Frame.setting o outer) (next call) ws vs m) :
    (RecognizerState.within part outer).Demands o (ph.tokens ++ ts) rest n ↔
      ∃ pr, (ph.invocation o.maxNesting p >>= fun call =>
        .ok (Progress.more (.within (next call) outer))) = .ok pr ∧ pr.Demands o ts rest n := by
  refine Iff.trans ?_ (reads_iff hph
    (Q := fun us call => (RecognizerState.within (next call) outer).Demands o us rest n) ?_)
  · constructor
    · intro hparts
      rcases hparts with ⟨us, m, hm, hres⟩
      obtain ⟨ws, call, hcall, hnext⟩ := (hpart _ _ _).mp hm
      exact ⟨ws, call, hcall, us, m, hnext, hres⟩
    · intro hparts
      rcases hparts with ⟨ws, call, hcall, us, m, hnext, hres⟩
      exact ⟨us, m, (hpart _ _ _).mpr ⟨ws, call, hcall, hnext⟩, hres⟩
  · intro call
    simp [Progress.Demands]

/-- An operator that is passed over makes an item, whatever its operands are. -/
theorem demands_undefined_iff (hph : ph.Proper) :
    (RecognizerState.within .undefined outer).Demands o (ph.tokens ++ ts) rest n ↔
      ∃ pr, stepPart o.maxNesting ph outer .undefined = .ok pr ∧ pr.Demands o ts rest n := by
  constructor
  · intro hparts
    rcases hparts with ⟨us, item, hpart, hres⟩
    cases hpart with
    | undefined hcall =>
      obtain ⟨rfl, hinv⟩ := (Phrase.isUncheckedCall_iff hph).mp hcall
      exact ⟨_, bind_eq_ok_iff.mpr ⟨_, hinv, rfl⟩, demands_deliver.mpr hres⟩
  · intro hparts
    rcases hparts with ⟨pr, hstep, hpr⟩
    obtain ⟨call, hinv, heq⟩ := bind_eq_ok_iff.mp hstep
    obtain rfl := Except.ok.inj heq
    exact ⟨ts, _, IsPart.undefined ((Phrase.isUncheckedCall_iff hph).mpr ⟨rfl, hinv⟩),
      demands_deliver.mp hpr⟩

/-! ### Sections -/

/-- A section is opened as long as there is room. -/
theorem openSection_eq_ok_iff {s : Section} {call : Invocation} {pr : Progress} :
    openSection o.maxNesting s call outer = .ok pr ↔
      0 < (Frame.setting o outer).room ∧
        .more (.between ⟨.within s, [.invocation call]⟩ outer) = pr := by
  have hroom : 0 < (Frame.setting o outer).room ↔ Frame.depth outer + 1 ≤ o.nestingLimit := by
    simp only [Frame.setting]
    omega
  rw [hroom]
  unfold openSection Options.nestingLimit
  by_cases h : Frame.depth outer + 1 ≤ min o.maxNesting deepestNesting
  · simp [NestingGuard.enter, NestingGuard.new, h]
  · simp [NestingGuard.enter, NestingGuard.new, h]

/-- What a section lacks before its opening operator: this operator, and what the
    open section lacks then. -/
theorem isPart_opening_iff {s : Section} {us : List Token} :
    (∃ vs item, IsPart o (Frame.setting o outer) (.opening s) us vs item ∧
        Resumes o outer item vs rest n) ↔
      0 < (Frame.setting o outer).room ∧ ∃ vs call, IsCallOf o.nestingLimit s.opening us vs call ∧
        Finishes o ⟨.within s, [.invocation call]⟩ outer vs rest n := by
  constructor
  · intro hparts
    rcases hparts with ⟨vs, item, hpart, hres⟩
    cases hpart with
    -- the same derivation, seen from inside: the opening operator is the first node
    -- of a new frame
    | @closed _ _ ws _ _ opening closing ns hroom hopening hns hclosing =>
      rw [← Frame.setting_within o s [.invocation opening]] at hns
      refine ⟨hroom, _, _, hopening, Finishes.closed hns hclosing ?_⟩
      simpa [Frame.node] using hres
    | @unclosed _ ws opening ns ho hroom hopening hns =>
      rw [← Frame.setting_within o .stateBlock [.invocation opening]] at hns
      refine ⟨hroom, _, _, hopening, Finishes.unclosed ho hns ?_⟩
      simpa [Frame.node, Section.production] using hres
  · intro hparts
    rcases hparts with ⟨hroom, vs, call, hopening, hfin⟩
    cases hfin with
    | closed hns hclosing hres =>
      rw [Frame.setting_within] at hns
      refine ⟨_, _, IsPart.closed hroom hopening hns hclosing, ?_⟩
      simpa [Frame.node] using hres
    | unclosed ho hns hres =>
      rw [Frame.setting_within] at hns
      refine ⟨_, _, IsPart.unclosed ho hroom hopening hns, ?_⟩
      simpa [Frame.node, Section.production] using hres

/-- A section that has been opened is a frame, if there is room for it. -/
theorem demands_opening_iff (hph : ph.Proper) (s : Section) :
    (RecognizerState.within (.opening s) outer).Demands o (ph.tokens ++ ts) rest n ↔
      ∃ pr, stepPart o.maxNesting ph outer (.opening s) = .ok pr ∧ pr.Demands o ts rest n := by
  have hopens : ∀ call, (0 < (Frame.setting o outer).room ∧
      Finishes o ⟨.within s, [.invocation call]⟩ outer ts rest n) ↔
      ∃ pr, openSection o.maxNesting s call outer = .ok pr ∧ pr.Demands o ts rest n := by
    intro call
    constructor
    · intro hparts
      rcases hparts with ⟨hroom, hfin⟩
      exact ⟨_, openSection_eq_ok_iff.mpr ⟨hroom, rfl⟩, hfin⟩
    · intro hparts
      rcases hparts with ⟨pr, hopen, hpr⟩
      obtain ⟨hroom, rfl⟩ := openSection_eq_ok_iff.mp hopen
      exact ⟨hroom, hpr⟩
  refine Iff.trans isPart_opening_iff (Iff.trans ?_ (reads_iff hph
    (Q := fun us call => 0 < (Frame.setting o outer).room ∧
      Finishes o ⟨.within s, [.invocation call]⟩ outer us rest n) hopens))
  constructor
  · intro hparts
    rcases hparts with ⟨hroom, us, call, hopening, hfin⟩
    exact ⟨us, call, hopening, hroom, hfin⟩
  · intro hparts
    rcases hparts with ⟨us, call, hopening, hroom, hfin⟩
    exact ⟨hroom, us, call, hopening, hfin⟩

/-! ### Parts of all kinds -/

/-- A phrase meets what a part asks if and only if the step in the part
    succeeds, and what comes after the phrase meets what is asked then. -/
theorem demands_within_iff (hph : ph.Proper) (part : Part) :
    (RecognizerState.within part outer).Demands o (ph.tokens ++ ts) rest n ↔
      ∃ pr, stepPart o.maxNesting ph outer part = .ok pr ∧ pr.Demands o ts rest n := by
  cases part with
  | path drawn clip => exact demands_path_iff hph drawn clip
  | undefined => exact demands_undefined_iff hph
  | single p => exact demands_last_iff hph fun _ _ _ => isPart_single_iff
  | image => exact demands_next_iff hph fun _ _ _ => isPart_image_iff
  | imageData begin => exact demands_next_iff hph fun _ _ _ => isPart_imageData_iff
  | imageEnd begin data => exact demands_last_iff hph fun _ _ _ => isPart_imageEnd_iff
  | opening s => exact demands_opening_iff hph s

/-! ## Steps between items -/

/-- The part that a phrase begins, in a setting. -/
inductive Begins (o : Options) (w : Setting) (glyph : Bool) (ph : Phrase) : Part → Prop where
  | known {op : Operator} {part : Part} (hop : ph.operator? = some op)
      (hrole : op.role w.level glyph = .begins part) : Begins o w glyph ph part
  | undefined (hop : ph.operator? = none) (hw : w.tolerant) (ho : o.undefinedOperators) :
      Begins o w glyph ph .undefined

theorem stepItem_of_begins {top : Frame} {part : Part}
    (h : Begins o (Frame.setting o (top :: outer)) top.isFresh ph part) :
    stepItem o ph top outer = stepPart o.maxNesting ph (top :: outer) part := by
  unfold stepItem
  cases h with
  | known hop hrole =>
    have hrole' : Operator.role _ (Frame.level (top :: outer)) top.isFresh = .begins part := hrole
    simp only [hop, hrole']
  | undefined hop hw ho =>
    have hw' : Frame.inCompatibility (top :: outer) = true := hw
    simp only [hop, hw', ho, Bool.and_self, if_true]

theorem stepItem_eq_ok_iff {top : Frame} {pr : Progress} :
    stepItem o ph top outer = .ok pr ↔
      ∃ part, Begins o (Frame.setting o (top :: outer)) top.isFresh ph part ∧
        stepPart o.maxNesting ph (top :: outer) part = .ok pr := by
  constructor
  · intro h
    -- an undefined operator is passed over only where this is tolerated
    unfold stepItem at h
    cases hop : ph.operator? with
    | none =>
      simp only [hop] at h
      split at h
      · next htolerant =>
        obtain ⟨hw, ho⟩ := Bool.and_eq_true_iff.mp htolerant
        exact ⟨_, Begins.undefined hop hw ho, h⟩
      · exact absurd h (by simp)
    | some op =>
      simp only [hop] at h
      split at h
      · next part hrole => exact ⟨part, Begins.known hop hrole, h⟩
      · exact absurd h (by simp)
      · exact absurd h (by simp)
  · intro h
    obtain ⟨part, hbegins, hstep⟩ := h
    rw [stepItem_of_begins hbegins, hstep]

section

variable {w : Setting} {glyph : Bool} {us : List Token}

/-- The operator of the first call begins what its role says. -/
theorem begins_of_isCall (hph : ph.Proper) {op : Operator} {call : Invocation} {part : Part}
    (hcall : IsCall o.nestingLimit op (ph.tokens ++ ts) us call)
    (hrole : op ∈ Operator.catalog → op.role w.level glyph = .begins part) :
    Begins o w glyph ph part := by
  obtain ⟨-, hop, -⟩ := (Phrase.isCall_iff hph).mp hcall
  exact Begins.known hop (hrole (Operator.mem_catalog_of_lookup? hop))

/-- What is drawn first begins a path. -/
theorem begins_path (hph : ph.Proper) {drawn : List Invocation}
    (hdrawn : AreDrawn o.nestingLimit (ph.tokens ++ ts) us drawn) (hne : drawn ≠ [])
    (hw : w.level = .page) : Begins o w glyph ph (.path [] none) := by
  generalize hvs : ph.tokens ++ ts = vs at hdrawn
  cases hdrawn with
  | nil => exact absurd rfl hne
  | cons hcall hcategory hcalls =>
    subst hvs
    refine begins_of_isCall hph hcall fun _ => ?_
    rw [hw]
    exact Operator.role_of_pathConstruction hcategory

theorem begins_image (hph : ph.Proper) {call : Invocation}
    (hcall : IsCallOf o.nestingLimit .beginInlineImage (ph.tokens ++ ts) us call)
    (hw : w.level = .page) : Begins o w glyph ph .image := by
  obtain ⟨hcall, hp⟩ := hcall
  refine begins_of_isCall hph hcall fun hop => ?_
  rw [hw]
  exact Operator.role_of_beginInlineImage hop hp

theorem begins_opening (hph : ph.Proper) {s : Section} {call : Invocation}
    (hcall : IsCallOf o.nestingLimit s.opening (ph.tokens ++ ts) us call)
    (hlevel : s = .textObject ∨ s = .stateBlock → w.level = .page) :
    Begins o w glyph ph (.opening s) := by
  obtain ⟨hcall, hp⟩ := hcall
  exact begins_of_isCall hph hcall fun hop => Operator.role_of_opening hop hp hlevel

/-- The first phrase of an item begins a part, which is the item. -/
theorem exists_begins_of_isItem (hph : ph.Proper)
    (h : IsItem o w glyph (ph.tokens ++ ts) rest n) :
    ∃ part, Begins o w glyph ph part ∧ IsPart o w part (ph.tokens ++ ts) rest n := by
  cases h with
  | single hcall hop =>
    exact ⟨_, begins_of_isCall hph hcall fun _ => Operator.role_of_isSingle hop,
      IsPart.single (IsCallOf.mk hcall rfl)⟩
  | undefined hcall hop hw ho =>
    obtain ⟨-, hinv⟩ := (Phrase.isUncheckedCall_iff hph).mp hcall
    rw [Phrase.keyword_of_undefinedInvocation hinv] at hop
    exact ⟨_, Begins.undefined hop hw ho, IsPart.undefined hcall⟩
  | @path _ _ _ _ _ _ drawn clip paint hdrawn hne hclip hpaint hw =>
    have hpart : IsPart o w (.path [] none) (ph.tokens ++ ts) rest
        (Grammar.pathNode ([].reverse ++ drawn) clip paint) :=
      IsPart.path hdrawn (by simpa using hne) hclip hpaint
    exact ⟨_, begins_path hph hdrawn hne hw, hpart⟩
  | image hbegin hdata hfin hw =>
    exact ⟨_, begins_image hph hbegin hw, IsPart.image hbegin hdata hfin⟩
  | closed hw hopening hns hclosing =>
    exact ⟨_, begins_opening hph hopening hw.2, IsPart.closed hw.1 hopening hns hclosing⟩
  | unclosed ho hw hopening hns =>
    exact ⟨_, begins_opening (s := .stateBlock) hph hopening hw.2,
      IsPart.unclosed ho hw.1 hopening hns⟩

/-- A part that an operator may begin is an item. -/
theorem isItem_of_mayBegin (hph : ph.Proper) {op : Operator} {part : Part}
    (hop : ph.operator? = some op) (hbegin : op.MayBegin w.level glyph part)
    (hpart : IsPart o w part (ph.tokens ++ ts) rest n) :
    IsItem o w glyph (ph.tokens ++ ts) rest n := by
  cases hbegin with
  | single hsingle =>
    cases hpart with
    | single hcall =>
      obtain ⟨hcall, -⟩ := hcall
      obtain ⟨-, hop', -⟩ := (Phrase.isCall_iff hph).mp hcall
      obtain rfl := Option.some.inj (hop.symm.trans hop')
      exact IsItem.single hcall hsingle
  | opening hp hlevel =>
    cases hpart with
    | closed hroom hopening hns hclosing =>
      exact IsItem.closed ⟨hroom, hlevel⟩ hopening hns hclosing
    | unclosed ho hroom hopening hns =>
      exact IsItem.unclosed ho ⟨hroom, hlevel⟩ hopening hns
  | path hcategory hlevel =>
    cases hpart with
    | path hmore hne hclip hpaint => exact IsItem.path hmore hne hclip hpaint hlevel
  | image hp hlevel =>
    cases hpart with
    | image hbegin hdata hfin => exact IsItem.image hbegin hdata hfin hlevel

/-- An item is the part that its first phrase begins. -/
theorem isItem_iff (hph : ph.Proper) :
    IsItem o w glyph (ph.tokens ++ ts) rest n ↔
      ∃ part, Begins o w glyph ph part ∧ IsPart o w part (ph.tokens ++ ts) rest n := by
  refine ⟨exists_begins_of_isItem hph, fun hparts => ?_⟩
  obtain ⟨part, hbegins, hpart⟩ := hparts
  cases hbegins with
  | known hop hrole => exact isItem_of_mayBegin hph hop (Operator.mayBegin_of_role hrole) hpart
  | undefined hop hw ho =>
    cases hpart with
    | undefined hcall =>
      obtain ⟨-, hinv⟩ := (Phrase.isUncheckedCall_iff hph).mp hcall
      refine IsItem.undefined hcall ?_ hw ho
      rw [Phrase.keyword_of_undefinedInvocation hinv]
      exact hop

end

/-- What frames lack, an item first. -/
theorem finishes_of_item {top : Frame} {us vs : List Token} {item : Node}
    (hitem : IsItem o (Frame.setting o (top :: outer)) top.isFresh us vs item)
    (hrest : Finishes o (top.push item) outer vs rest n) :
    Finishes o top outer us rest n := by
  obtain ⟨enclosure, nodes⟩ := top
  cases enclosure with
  | stream =>
    cases hrest with
    | @stream _ ns _ _ hns =>
      have hnode : Frame.node ⟨.stream, ns.reverse ++ item :: nodes⟩ =
          Frame.node ⟨.stream, (item :: ns).reverse ++ nodes⟩ := by
        simp
      rw [hnode]
      exact Finishes.stream (AreItems.cons hitem hns)
  | within s =>
    cases hrest with
    | closed hns hclosing hres =>
      refine Finishes.closed (AreItems.cons hitem hns) hclosing ?_
      simpa using hres
    | unclosed ho hns hres =>
      refine Finishes.unclosed ho (AreItems.cons hitem hns) ?_
      simpa using hres

/-- What frames lack begins with an item, or with the operator that closes the
    first frame. -/
theorem finishes_phrase_iff (hph : ph.Proper) {top : Frame} :
    Finishes o top outer (ph.tokens ++ ts) rest n ↔
      (∃ us item, IsItem o (Frame.setting o (top :: outer)) top.isFresh (ph.tokens ++ ts) us item ∧
        Finishes o (top.push item) outer us rest n) ∨
      (∃ s call, top.enclosure = .within s ∧ ph.invocation o.maxNesting s.closing = .ok call ∧
        Resumes o outer (top.push (.invocation call)).node ts rest n) := by
  have hne : ph.tokens ++ ts ≠ [] := by simp [Phrase.tokens]
  constructor
  · intro h
    generalize hvs : ph.tokens ++ ts = vs at h hne ⊢
    cases h with
    | @stream nodes ns _ _ hns =>
      cases hns with
      | nil => exact absurd rfl hne
      | cons hitem hns =>
        refine .inl ⟨_, _, hitem, ?_⟩
        rw [List.reverse_cons, List.append_assoc]
        exact Finishes.stream hns
    | closed hns hclosing hres =>
      cases hns with
      -- no item is left, so the phrase is the closing operator
      | nil =>
        subst hvs
        obtain ⟨rfl, hinv⟩ := (Phrase.isCallOf_iff hph).mp hclosing
        exact .inr ⟨_, _, rfl, hinv, hres⟩
      | cons hitem hns =>
        refine .inl ⟨_, _, hitem, Finishes.closed hns hclosing ?_⟩
        simpa using hres
    | unclosed ho hns hres =>
      cases hns with
      | nil => exact absurd rfl hne
      | cons hitem hns =>
        refine .inl ⟨_, _, hitem, Finishes.unclosed ho hns ?_⟩
        simpa using hres
  · intro hparts
    rcases hparts with ⟨us, item, hitem, hrest⟩ | ⟨s, call, htop, hinv, hres⟩
    · exact finishes_of_item hitem hrest
    · obtain ⟨enclosure, nodes⟩ := top
      dsimp only at htop
      subst htop
      exact Finishes.closed AreItems.nil ((Phrase.isCallOf_iff hph).mpr ⟨rfl, hinv⟩) hres

theorem demands_item_iff (hph : ph.Proper) {top : Frame} :
    (∃ us item, IsItem o (Frame.setting o (top :: outer)) top.isFresh (ph.tokens ++ ts) us item ∧
        Finishes o (top.push item) outer us rest n) ↔
      ∃ pr, stepItem o ph top outer = .ok pr ∧ pr.Demands o ts rest n := by
  constructor
  · intro hparts
    rcases hparts with ⟨us, item, hitem, hrest⟩
    obtain ⟨part, hbegins, hpart⟩ := (isItem_iff hph).mp hitem
    have hdemands : (RecognizerState.within part (top :: outer)).Demands o (ph.tokens ++ ts) rest n :=
      ⟨us, item, hpart, Resumes.inside hrest⟩
    obtain ⟨pr, hstep, hpr⟩ := (demands_within_iff hph part).mp hdemands
    exact ⟨pr, stepItem_eq_ok_iff.mpr ⟨part, hbegins, hstep⟩, hpr⟩
  · intro hparts
    rcases hparts with ⟨pr, hstep, hpr⟩
    obtain ⟨part, hbegins, hstep⟩ := stepItem_eq_ok_iff.mp hstep
    obtain ⟨us, item, hpart, hres⟩ := (demands_within_iff hph part).mpr ⟨pr, hstep, hpr⟩
    cases hres with
    | inside hrest => exact ⟨us, item, (isItem_iff hph).mpr ⟨part, hbegins, hpart⟩, hrest⟩

/-- The operator that closes a section begins nothing. -/
theorem stepItem_of_closes {s : Section} (h : closes ph (.within s) = true) {top : Frame} :
    ∃ f, stepItem o ph top outer = .error f := by
  obtain ⟨op, hop, hp⟩ := (Option.any_eq_true _ _).mp h
  have hrole : op.role (Frame.level (top :: outer)) top.isFresh = .outOfPlace :=
    Operator.role_of_closing (Operator.mem_catalog_of_lookup? hop) (by simpa using hp)
  unfold stepItem
  simp only [hop, hrole]
  exact ⟨_, rfl⟩

/-- An invocation of a closing operator closes. -/
theorem closes_of_invocation {s : Section} {call : Invocation}
    (h : ph.invocation o.maxNesting s.closing = .ok call) : closes ph (.within s) = true := by
  obtain ⟨op, xs, hop, hp, -⟩ := Phrase.invocation_eq_ok_iff.mp h
  simp [closes, hop, hp]

/-- Between two items a phrase begins one, or closes the first frame. -/
theorem step_between_eq_ok_iff {top : Frame} {pr : Progress} :
    step o ph (.between top outer) = .ok pr ↔
      stepItem o ph top outer = .ok pr ∨
      ∃ s call, top.enclosure = .within s ∧ ph.invocation o.maxNesting s.closing = .ok call ∧
        deliver (top.push (.invocation call)).node outer = pr := by
  obtain ⟨enclosure, nodes⟩ := top
  cases enclosure with
  | stream => simp [step]
  | within s =>
    unfold step
    -- a closing operator is never also the start of an item
    by_cases hcloses : closes ph (.within s) = true
    · obtain ⟨f, hf⟩ := @stepItem_of_closes o ph outer s hcloses ⟨.within s, nodes⟩
      simp [hcloses, hf, bind_eq_ok_iff]
    · have hinv : ∀ call, ph.invocation o.maxNesting s.closing ≠ .ok call :=
        fun call h => hcloses (closes_of_invocation h)
      simp [hcloses, hinv]

/-- **One step**: a phrase meets what a state asks if and only if the step
    succeeds, and what comes after the phrase meets what is asked then. -/
theorem demands_iff_step (hph : ph.Proper) (state : RecognizerState) :
    state.Demands o (ph.tokens ++ ts) rest n ↔
      ∃ pr, step o ph state = .ok pr ∧ pr.Demands o ts rest n := by
  cases state with
  | within part outer => exact demands_within_iff hph part
  | between top outer =>
    show Finishes o top outer (ph.tokens ++ ts) rest n ↔ _
    rw [finishes_phrase_iff hph, demands_item_iff hph]
    constructor
    · intro hparts
      rcases hparts with ⟨pr, hstep, hpr⟩ | ⟨s, call, htop, hinv, hres⟩
      · exact ⟨pr, step_between_eq_ok_iff.mpr (.inl hstep), hpr⟩
      · exact ⟨_, step_between_eq_ok_iff.mpr (.inr ⟨s, call, htop, hinv, rfl⟩),
          demands_deliver.mpr hres⟩
    · intro hparts
      rcases hparts with ⟨pr, hstep, hpr⟩
      rcases step_between_eq_ok_iff.mp hstep with hstep | ⟨s, call, htop, hinv, rfl⟩
      · exact .inl ⟨pr, hstep, hpr⟩
      · exact .inr ⟨s, call, htop, hinv, demands_deliver.mp hpr⟩

/-! ## Ends -/

theorem not_isPaint_of_noOperator {d : Nat} {us vs : List Token} {call : Invocation}
    (h : NoOperator us) : ¬ IsPaint d us vs call := by
  intro hparts
  rcases hparts with ⟨hcall, -⟩
  exact not_isCall_of_noOperator h hcall

/-- Without an operator there is no item, and no part is complete. -/
theorem not_isPart_of_noOperator {w : Setting} {part : Part} {us : List Token}
    (h : NoOperator us) : ¬ IsPart o w part us rest n := by
  intro hpart
  cases hpart with
  | single hcall => exact not_isCallOf_of_noOperator h hcall
  | undefined hcall => exact not_isUncheckedCall_of_noOperator h hcall
  | image hbegin hdata hfin => exact not_isCallOf_of_noOperator h hbegin
  | imageData hdata hfin => exact not_isCallOf_of_noOperator h hdata
  | imageEnd hfin => exact not_isCallOf_of_noOperator h hfin
  | closed hroom hopening hns hclosing => exact not_isCallOf_of_noOperator h hopening
  | unclosed ho hroom hopening hns => exact not_isCallOf_of_noOperator h hopening
  | clipped hne hpaint => exact not_isPaint_of_noOperator h hpaint
  | path hmore hne hclip hpaint =>
    cases hmore with
    | cons hcall hop hcalls => exact not_isCall_of_noOperator h hcall
    | nil =>
      cases hclip with
      | some hcall hop => exact not_isCall_of_noOperator h hcall
      | none => exact not_isPaint_of_noOperator h hpaint

theorem not_isItem_of_noOperator {w : Setting} {glyph : Bool} {us : List Token}
    (h : NoOperator us) : ¬ IsItem o w glyph us rest n := by
  intro hitem
  cases hitem with
  | single hcall hop => exact not_isCall_of_noOperator h hcall
  | undefined hcall hop hw ho => exact not_isUncheckedCall_of_noOperator h hcall
  | image hbegin hdata hfin hw => exact not_isCallOf_of_noOperator h hbegin
  | closed hw hopening hns hclosing => exact not_isCallOf_of_noOperator h hopening
  | unclosed ho hw hopening hns => exact not_isCallOf_of_noOperator h hopening
  | path hdrawn hne hclip hpaint hw =>
    cases hdrawn with
    | nil => exact absurd rfl hne
    | cons hcall hop hcalls => exact not_isCall_of_noOperator h hcall

/-- Items without an operator are none at all. -/
theorem areItems_of_noOperator {w : Setting} {glyph : Bool} {us vs : List Token}
    {ns : List Node} (h : NoOperator us) (hns : AreItems o w glyph us vs ns) :
    us = vs ∧ ns = [] := by
  cases hns with
  | nil => exact ⟨rfl, rfl⟩
  | cons hitem hns => exact absurd hitem (not_isItem_of_noOperator h)

/-- What frames lack when no operator follows: nothing but state blocks can be
    open, and these only if the options say so. -/
theorem finishes_noOperator_iff {top : Frame} {pending : List Token} (h : NoOperator pending) :
    Finishes o top outer pending rest n ↔ pending = [] ∧
      (top.enclosure = .stream ∧ rest = [] ∧ n = top.node ∨
       top.enclosure = .within .stateBlock ∧ o.unclosedStates ∧
         Resumes o outer top.node [] rest n) := by
  constructor
  · intro hfin
    cases hfin with
    | stream hns =>
      obtain ⟨rfl, rfl⟩ := areItems_of_noOperator h hns
      exact ⟨rfl, .inl ⟨rfl, rfl, rfl⟩⟩
    | closed hns hclosing hres =>
      obtain ⟨rfl, rfl⟩ := areItems_of_noOperator h hns
      exact absurd hclosing (not_isCallOf_of_noOperator h)
    | unclosed ho hns hres =>
      obtain ⟨rfl, rfl⟩ := areItems_of_noOperator h hns
      exact ⟨rfl, .inr ⟨rfl, ho, hres⟩⟩
  · obtain ⟨enclosure, nodes⟩ := top
    intro hparts
    rcases hparts with ⟨rfl, ⟨htop, rfl, rfl⟩ | ⟨htop, ho, hres⟩⟩
    · dsimp only at htop
      subst htop
      exact Finishes.stream AreItems.nil
    · dsimp only at htop
      subst htop
      exact Finishes.unclosed ho AreItems.nil hres

/-- What the end of the stream makes of the first frame; the same for the others once
    they have got it. -/
theorem finishFrames_eq_ok_iff {top : Frame} {pending : List Token} {eof : Token} :
    finishFrames o pending eof top outer = .ok n ↔ pending = [] ∧
      (top.enclosure = .stream ∧ n = top.node ∨
       top.enclosure = .within .stateBlock ∧ o.unclosedStates ∧
         match outer with
         | [] => n = top.node
         | f :: outer' => finishFrames o [] eof (f.push top.node) outer' = .ok n) := by
  obtain ⟨enclosure, nodes⟩ := top
  rw [finishFrames.eq_def]
  cases pending with
  | cons t pending => simp
  | nil =>
    cases enclosure with
    | stream => simp [@eq_comm _ n]
    | within s =>
      by_cases hs : s = .stateBlock ∧ o.unclosedStates = true
      · cases outer with
        | nil => simp [hs, @eq_comm _ n]
        | cons f outer => simp [hs]
      · -- only a state block may be left open
        simp only [hs, if_false, reduceCtorEq, true_and, false_and, false_or, false_iff]
        intro hparts
        rcases hparts with ⟨htop, ho, -⟩
        exact hs ⟨by simpa using htop, ho⟩

/-- The end of the stream is reached between two items if and only if the tokens
    in front of it meet what the frames lack. -/
theorem finishes_iff_finishFrames {top : Frame} {pending : List Token}
    (h : NoOperator pending) (eof : Token) :
    Finishes o top outer pending rest n ↔
      rest = [] ∧ finishFrames o pending eof top outer = .ok n := by
  -- by induction on the frames outside; no token is left for them
  induction outer generalizing top pending with
  | nil =>
    rw [finishes_noOperator_iff h, finishFrames_eq_ok_iff, resumes_nil_iff]
    grind
  | cons f outer ih =>
    rw [finishes_noOperator_iff h, finishFrames_eq_ok_iff, resumes_cons_iff, ih NoOperator.nil]
    grind

/-- A part is never complete at the end of the stream. -/
theorem finish_within {part : Part} {pending : List Token} {eof : Token} :
    finish o pending eof (.within part outer) ≠ .ok n := by
  show (if part.isCommitted then _ else _) ≠ _
  by_cases hpart : part.isCommitted = true
  · rw [if_pos hpart]
    cases readPending o.maxNesting pending <;> simp
  · rw [if_neg hpart]
    simp

/-- The end of the stream is accepted if and only if the tokens in front of it
    meet what the state asks. -/
theorem demands_iff_finish {pending : List Token} (h : NoOperator pending) (eof : Token)
    (state : RecognizerState) :
    state.Demands o pending rest n ↔ rest = [] ∧ finish o pending eof state = .ok n := by
  cases state with
  | between top outer => exact finishes_iff_finishFrames h eof
  | within part outer =>
    constructor
    · intro hparts
      rcases hparts with ⟨us, item, hpart, -⟩
      exact absurd hpart (not_isPart_of_noOperator h)
    · intro hparts
      rcases hparts with ⟨-, hfin⟩
      exact absurd hfin finish_within

/-! ## Runs -/

theorem run_phrases_iff {phs : List Phrase} (hphs : ∀ ph ∈ phs, ph.Proper)
    {pending : List Token} (hpending : NoOperator pending) {eof : Token}
    (state : RecognizerState) {left : Feed} :
    run o state (Feed.ofPhrases phs (.finish pending eof)) = .ok (n, left) ↔
      ∃ rest, state.Demands o (phs.flatMap Phrase.tokens ++ pending) rest n ∧
        left = Feed.ofTokens rest (.finish [] eof) := by
  -- by induction on the phrases; each is one step of the recogniser
  induction phs generalizing state with
  | nil =>
    show run o state (.finish pending eof) = _ ↔ ∃ rest, state.Demands o pending rest n ∧ _
    simp only [demands_iff_finish hpending eof, run]
    cases hfin : finish o pending eof state with
    | error e => simp
    | ok m =>
      simp only [Except.ok.injEq, Prod.mk.injEq]
      constructor
      · rintro ⟨rfl, rfl⟩
        exact ⟨[], ⟨rfl, rfl⟩, rfl⟩
      · rintro ⟨_, ⟨rfl, rfl⟩, rfl⟩
        exact ⟨rfl, rfl⟩
  | cons ph phs ih =>
    have hph : ph.Proper := hphs ph (by simp)
    have hphs' : ∀ p ∈ phs, p.Proper := fun p hp => hphs p (by simp [hp])
    show run o state (.phrase ph (Feed.ofPhrases phs (.finish pending eof))) = _ ↔ _
    simp only [List.flatMap_cons, List.append_assoc, demands_iff_step hph, run]
    cases hstep : step o ph state with
    | error f => simp
    | ok pr =>
      cases pr with
      -- the demand has moved on to the phrases left
      | more state' => simp [ih hphs', Progress.Demands]
      | done m =>
        -- the item is complete, and the other phrases are left
        have hleft : Feed.ofTokens (phs.flatMap Phrase.tokens ++ pending) (.finish [] eof) =
            Feed.ofPhrases phs (.finish pending eof) := by
          rw [Feed.ofTokens_append, Feed.ofTokens_pending hpending]
          simp [Feed.prepend, Feed.ofTokens_phrases hphs']
        simp only [Progress.Demands, ← hleft, Except.ok.injEq, Prod.mk.injEq, exists_eq_left']
        constructor
        · intro hparts
          rcases hparts with ⟨rfl, rfl⟩
          exact ⟨_, ⟨rfl, rfl⟩, rfl⟩
        · intro hparts
          rcases hparts with ⟨rest, ⟨rfl, rfl⟩, rfl⟩
          exact ⟨rfl, rfl⟩

/-- **Runs**: a run over the tokens of a stream without faults is successful if
    and only if the tokens meet what the state asks. -/
theorem run_eq_ok_iff {ts : List Token} {eof : Token} (state : RecognizerState) {left : Feed} :
    run o state (Feed.ofTokens ts (.finish [] eof)) = .ok (n, left) ↔
      ∃ rest, state.Demands o ts rest n ∧ left = Feed.ofTokens rest (.finish [] eof) := by
  obtain ⟨phs, pending, rfl, hphs, hpending⟩ := exists_phrases ts
  rw [← run_phrases_iff hphs hpending, Feed.ofTokens_append, Feed.ofTokens_pending hpending,
    Feed.ofTokens_phrases hphs]
  simp [Feed.prepend]

/-- The state asks for all tokens of the stream. -/
def Exhausts (o : Options) (state : RecognizerState) : Prop :=
  ∀ ts rest n, state.Demands o ts rest n → rest = []

theorem exhausts_start : Exhausts o (start .content) := by
  intro ts rest n h
  cases h with
  | stream hns => rfl

/-- A state that asks for all tokens leads to such states only. -/
theorem exhausts_step (hph : ph.Proper) {state : RecognizerState} (h : Exhausts o state)
    {pr : Progress} (hstep : step o ph state = .ok pr) :
    ∃ state', pr = .more state' ∧ Exhausts o state' := by
  cases pr with
  | more state' =>
    refine ⟨state', rfl, ?_⟩
    intro ts rest n hstate'
    exact h _ rest n ((demands_iff_step hph state).mpr ⟨_, hstep, hstate'⟩)
  | done m =>
    -- any token might be left over
    have hm : Progress.Demands o (.done m) [ph.token] [ph.token] m := ⟨rfl, rfl⟩
    have := h _ _ _ ((demands_iff_step hph state).mpr ⟨_, hstep, hm⟩)
    exact absurd this (by simp)

/-- Such a run does not get past a fault. -/
theorem run_of_isFault {feed : Feed} (hfeed : feed.IsFault) {phs : List Phrase}
    (hphs : ∀ ph ∈ phs, ph.Proper) {state : RecognizerState} (h : Exhausts o state) :
    ∃ e, run o state (Feed.ofPhrases phs feed) = .error e := by
  induction phs generalizing state with
  | nil =>
    show ∃ e, run o state feed = .error e
    cases feed with
    | phrase p rest => exact absurd hfeed (by simp [Feed.IsFault])
    | finish pending eof => exact absurd hfeed (by simp [Feed.IsFault])
    -- the pending tokens may be refused before the fault is met; both are errors
    | fault pending e rest =>
      unfold run
      split <;> exact ⟨_, rfl⟩
    | stuck pending e =>
      unfold run
      split <;> exact ⟨_, rfl⟩
  | cons ph phs ih =>
    show ∃ e, run o state (.phrase ph (Feed.ofPhrases phs feed)) = .error e
    unfold run
    cases hstep : step o ph state with
    | error f => exact ⟨_, rfl⟩
    | ok pr =>
      obtain ⟨state', rfl, hstate'⟩ := exhausts_step (hphs ph (by simp)) h hstep
      exact ih (fun p hp => hphs p (by simp [hp])) hstate'

/-- What the start of a content stream asks for is a content stream. -/
theorem demands_start_iff {ts : List Token} {n : Node} :
    (start .content).Demands o ts [] n ↔ IsContent o ts n := by
  constructor
  · intro h
    cases h with
    | @stream _ ns _ _ hns => exact ⟨ns, hns, by simp [Frame.node]⟩
  · intro hparts
    rcases hparts with ⟨ns, hns, rfl⟩
    have hfin : Finishes o ⟨.stream, []⟩ [] ts [] (Frame.node ⟨.stream, ns.reverse ++ []⟩) :=
      Finishes.stream hns
    rw [Frame.node, List.append_nil, List.reverse_reverse] at hfin
    exact hfin

/-- A content stream is read from the start to the end of the feed. -/
theorem read_content (o : Options) (feed : Feed) :
    read o .content feed = run o (start .content) feed :=
  rfl

end Recognizer

/-! ## Content streams -/

namespace ContentStream

theorem parse_eq_ok_iff_run {o : Options} {bytes : List UInt8} {t : ContentStream} :
    parse o bytes = .ok t ↔ ∃ left, Recognizer.run o (Recognizer.start .content)
      (Feed.ofBytes bytes) = .ok (t.root, left) := by
  unfold parse
  rw [Recognizer.read_content]
  obtain ⟨root⟩ := t
  rcases Recognizer.run o (Recognizer.start .content) (Feed.ofBytes bytes) with e | ⟨n, left⟩
  · simp
  · simp

theorem parse_eq_error_iff_run {o : Options} {bytes : List UInt8} {e : ParseError} :
    parse o bytes = .error e ↔ ∃ left, Recognizer.run o (Recognizer.start .content)
      (Feed.ofBytes bytes) = .error (e, left) := by
  unfold parse
  rw [Recognizer.read_content]
  rcases Recognizer.run o (Recognizer.start .content) (Feed.ofBytes bytes) with ⟨e, left⟩ | n
  · simp
  · simp

/-- A stream without faults is accepted if its tokens are a content stream. -/
theorem parse_tokens_iff {o : Options} {bytes : List UInt8} {ts : List Token} {eof : Token}
    (h : Feed.ofBytes bytes = Feed.ofTokens ts (.finish [] eof)) {t : ContentStream} :
    parse o bytes = .ok t ↔ IsContent o ts t.root := by
  rw [parse_eq_ok_iff_run, ← Recognizer.demands_start_iff, h]
  constructor
  · intro hparts
    rcases hparts with ⟨left, hleft⟩
    obtain ⟨rest, hdemands, -⟩ := (Recognizer.run_eq_ok_iff _).mp hleft
    obtain rfl := Recognizer.exhausts_start _ _ _ hdemands
    exact hdemands
  · intro hdemands
    exact ⟨_, (Recognizer.run_eq_ok_iff _).mpr ⟨[], hdemands, rfl⟩⟩

/-- A stream with a fault is not accepted. -/
theorem parse_of_isFault {o : Options} {bytes : List UInt8} {ts : List Token} {feed : Feed}
    (hfeed : feed.IsFault) (h : Feed.ofBytes bytes = Feed.ofTokens ts feed) :
    ∃ e, parse o bytes = .error e := by
  obtain ⟨phs, pending, rfl, hphs, hpending⟩ := exists_phrases ts
  rw [Feed.ofTokens_append, Feed.ofTokens_pending hpending, Feed.ofTokens_phrases hphs] at h
  obtain ⟨⟨e, left⟩, he⟩ := Recognizer.run_of_isFault (Feed.isFault_prepend hfeed pending) hphs
    (@Recognizer.exhausts_start o)
  rw [← h] at he
  exact ⟨e, parse_eq_error_iff_run.mpr ⟨left, he⟩⟩

/-- A stream that is accepted has no lexical fault. -/
theorem exists_tokens_of_parse {o : Options} {bytes : List UInt8} {t : ContentStream}
    (h : parse o bytes = .ok t) :
    ∃ ts eof, tokenize bytes = .ok (ts ++ [eof]) ∧ eof.lexeme = .eof := by
  rcases Feed.ofScan_ofLexer (Lexer.ofBytes bytes) with
    ⟨ts, eof, htokens, heof, -⟩ | ⟨-, ts, feed, -, hfault, hfeed⟩
  · exact ⟨ts, eof, htokens, heof⟩
  · obtain ⟨e, he⟩ := parse_of_isFault hfault hfeed
    exact absurd (h.symm.trans he) (by simp)

/-- A stream without lexical fault is accepted with the trees that its tokens
    are. -/
theorem parse_iff_of_tokenize {o : Options} {bytes : List UInt8} {ts : List Token}
    {eof : Token} (h : tokenize bytes = .ok (ts ++ [eof])) {t : ContentStream} :
    parse o bytes = .ok t ↔ IsContent o ts t.root :=
  parse_tokens_iff (Feed.ofBytes_of_tokenize h)

/-- **Acceptance**: a stream is accepted with a tree if and only if it has no
    lexical fault, and its tokens, without the end of the stream, are that tree
    by the grammar. -/
theorem parse_eq_ok_iff (o : Options) (bytes : List UInt8) (t : ContentStream) :
    parse o bytes = .ok t ↔
      ∃ ts eof, tokenize bytes = .ok (ts ++ [eof]) ∧ eof.lexeme = .eof ∧
        IsContent o ts t.root := by
  constructor
  · intro h
    obtain ⟨ts, eof, htokens, heof⟩ := exists_tokens_of_parse h
    exact ⟨ts, eof, htokens, heof, (parse_iff_of_tokenize htokens).mp h⟩
  · intro hparts
    rcases hparts with ⟨ts, eof, htokens, -, h⟩
    exact (parse_iff_of_tokenize htokens).mpr h

end ContentStream

end PageContent
