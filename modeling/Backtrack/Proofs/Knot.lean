import Backtrack.Proofs.Unlimited

/-!
# Tying the Knot

A rule can refer to itself in two ways. It can be built around a handle that stands for it, and be
tied to the handle afterwards. Or it can be a rule of the table that refers to its own name and is
looked up anew each time. From the same body, both ways make the same rule: a handle leads one
level deeper, as a reference does, and the outermost entry counts in neither case. Where levels
are not limited, the body with the tied rule in the place of the handle is the same once more.

The body is a grammar with a hole. It is given as a rule of a table, in which the references to
the rule are the hole. So the hole may be anywhere, also in rules within the body, in
continuations, and behind references to other rules. The table of the knot has a copy of every
rule for each side, that is, for each thing that goes into the hole, so that all sides can be run
with one table and in one scope.

The sides do not meet the hole in the same scope. A handle leads back to where its rule was
defined, while a reference stays where it is, with all the rules around it. It makes no
difference as long as these rules hide nothing that the body takes from outside, which
`Grammar.Scoped` says of a table. It is a matter of names only.

## Main definitions

* `Grammar.fill`: a grammar with something in its hole.
* `Rules.knot`: the table with a copy of every rule for each side.
* `Rules.tied`: the rule tied to its own handle.
* `Grammar.Scoped`, `Rules.Scoped`: handles are bound around them or taken from outside.

## Main results

* `Grammar.Scoped.compares_interpret`: two sides compare if they do so in the hole.
* `Rules.Scoped.compares_rule`: the tied and the wrapped rule compare in every respect.
* `Rules.Scoped.tied_eq_wrapped`: what is seen of the rules on the three sides.
-/

namespace Backtrack

variable {σ : Signature} {τ α : Type}

/-! ### Grammars with a hole -/

/-- What goes into the **hole** of a grammar. -/
inductive Side where
  /-- The handle of the rule whose body the grammar is. -/
  | tied
  /-- A reference to the rule. -/
  | wrapped
  /-- The rule itself, tied to its own handle. -/
  | unrolled
  deriving DecidableEq

/-- The **names of a knot**: one for the rule with the hole in it, and for every name a copy for
each side. -/
inductive Knot (Name : Type) where
  /-- The rule itself. -/
  | own
  /-- The copy of a name. -/
  | copy (side : Side) (name : Name)
  deriving DecidableEq

/-- The names of a knot, with the values of the rules. -/
@[reducible]
def Signature.knot (σ : Signature) (hole : σ.Name) : Signature where
  Name := Knot σ.Name
  Value
    | .own => σ.Value hole
    | .copy _ name => σ.Value name
  decEq := inferInstance

/-- The name of the rule with the hole. -/
@[reducible]
def Signature.own (σ : Signature) (hole : σ.Name) : (σ.knot hole).Name := Knot.own

/-- The copy of a name for a side. -/
@[reducible]
def Signature.copy (σ : Signature) (hole : σ.Name) (side : Side) (name : σ.Name) :
    (σ.knot hole).Name :=
  Knot.copy side name

theorem Signature.copy_ne {σ : Signature} {hole other name : σ.Name} (h : other ≠ name)
    (side : Side) : σ.copy hole side other ≠ σ.copy hole side name := by
  intro heq
  exact h (Knot.copy.inj heq).2

theorem Signature.own_ne_copy (σ : Signature) (hole : σ.Name) (side : Side) (name : σ.Name) :
    σ.own hole ≠ σ.copy hole side name := by
  intro heq
  cases heq

/-- **Fills the hole** of a grammar, which is where it refers to `hole`. Other references go to the
copies of their rules for this side, as there may be holes in these as well. The names of handles
are the same on all sides. -/
def Grammar.fill (hole : σ.Name) (side : Side) (filling : Grammar (σ.knot hole) τ (σ.Value hole)) :
    {α : Type} → Grammar σ τ α → Grammar (σ.knot hole) τ α
  | _, .succeed value => .succeed value
  | _, .fail message => .fail message
  | _, .satisfy expected test => .satisfy expected test
  | _, .eof => .eof
  | _, .bind g next => .bind (fill hole side filling g) fun a => fill hole side filling (next a)
  | _, .map f g => .map f (fill hole side filling g)
  | _, .pair g h => .pair (fill hole side filling g) (fill hole side filling h)
  | _, .keepRight g h => .keepRight (fill hole side filling g) (fill hole side filling h)
  | _, .keepLeft g h => .keepLeft (fill hole side filling g) (fill hole side filling h)
  | _, .orElse g h => .orElse (fill hole side filling g) (fill hole side filling h)
  | _, .optional g => .optional (fill hole side filling g)
  | _, .many g => .many (fill hole side filling g)
  | _, .label name g => .label name (fill hole side filling g)
  | _, .commit g => .commit (fill hole side filling g)
  | _, .deferred name =>
    if h : hole = name then h ▸ filling else .deferred (σ.copy hole side name)
  | _, .recursive name body =>
    .recursive (σ.copy hole .tied name) (fill hole side filling body)
  | _, .handle name => .handle (σ.copy hole .tied name)
  | _, .withRule name phase body g =>
    .withRule (σ.copy hole .tied name) phase (fill hole side filling body)
      (fill hole side filling g)
  | _, .around before after g => .around before after (fill hole side filling g)

namespace Rules

/-- The rule with the hole, **tied to its own handle**. -/
def tied (rules : Rules σ τ) (hole : σ.Name) : Grammar (σ.knot hole) τ (σ.Value hole) :=
  .recursive (σ.own hole) (Grammar.fill hole .tied (.handle (σ.own hole)) (rules hole))

/-- What goes into the hole on each side. -/
def filling (rules : Rules σ τ) (hole : σ.Name) : Side → Grammar (σ.knot hole) τ (σ.Value hole)
  | .tied => .handle (σ.own hole)
  | .wrapped => .deferred (σ.own hole)
  | .unrolled => rules.tied hole

/-- A grammar with its hole filled as a side says. -/
def fill (rules : Rules σ τ) (hole : σ.Name) (side : Side) (g : Grammar σ τ α) :
    Grammar (σ.knot hole) τ α :=
  Grammar.fill hole side (rules.filling hole side) g

/-- The **table of a knot**: the rule with the hole refers to itself, and the copies of the other
rules are filled as their sides say. -/
def knot (rules : Rules σ τ) (hole : σ.Name) : Rules (σ.knot hole) τ
  | .own => rules.fill hole .wrapped (rules hole)
  | .copy side name => rules.fill hole side (rules name)

end Rules

/-- A scope of rules whose holes are filled as a side says, within an outer scope. -/
def Scope.fill (rules : Rules σ τ) (hole : σ.Name) (side : Side) :
    Scope σ τ → (outer : Scope (σ.knot hole) τ) → Scope (σ.knot hole) τ
  | .empty, outer => outer
  | .rule inner name phase body, outer =>
    .rule (inner.fill rules hole side outer) (σ.copy hole .tied name) phase
      (rules.fill hole side body)

/-! ### Which names are bound where -/

/-- The names that the rules of a scope bind. -/
def Scope.Binds : Scope σ τ → σ.Name → Prop
  | .empty, _ => False
  | .rule outer other _ _, name => name = other ∨ outer.Binds name

/-- Handles that are bound around them or taken from outside the rule with the hole. The handles
that the rule with the hole takes from outside are `captures hole`, and no rule within has one of
their names. Another rule of the table takes handles from where it is referred to, namely those
that `captures` says, so they must be bound there. -/
def Discipline.scoped (captures : σ.Name → σ.Name → Prop) (hole : σ.Name) :
    Discipline σ (σ.Name → Prop) where
  deferred name bound := ∀ taken, captures name taken → bound taken ∨ captures hole taken
  handle name bound := bound name ∨ captures hole name
  recursive name bound body :=
    ¬ captures hole name ∧ body fun other => other = name ∨ bound other
  withRule name _ bound body g :=
    ¬ captures hole name ∧ (body fun other => other = name ∨ bound other) ∧
      g fun other => other = name ∨ bound other
  around _ := False

/-- A plain grammar whose handles are **bound around them or taken from outside** the rule with the
hole. -/
def Grammar.Scoped (captures : σ.Name → σ.Name → Prop) (hole : σ.Name) (g : Grammar σ τ α)
    (bound : σ.Name → Prop) : Prop :=
  g.Obeys (.scoped captures hole) bound

/-- All rules of the table are scoped so. -/
def Rules.Scoped (rules : Rules σ τ) (captures : σ.Name → σ.Name → Prop) (hole : σ.Name) : Prop :=
  rules.Obey (.scoped captures hole) captures

theorem Rules.Scoped.rule {rules : Rules σ τ} {captures : σ.Name → σ.Name → Prop} {hole : σ.Name}
    (h : rules.Scoped captures hole) (name : σ.Name) :
    (rules name).Scoped captures hole (captures name) := h name

/-- The rules of a scope within the rule with the hole are scoped so. -/
def Scope.Scoped (captures : σ.Name → σ.Name → Prop) (hole : σ.Name) (scope : Scope σ τ) : Prop :=
  scope.All fun outer name _ body =>
    ¬ captures hole name ∧ body.Scoped captures hole fun other => other = name ∨ outer.Binds other

section

variable {captures : σ.Name → σ.Name → Prop} {hole : σ.Name}

/-- Where more handles are bound, a grammar is scoped as well. -/
theorem Grammar.Scoped.mono {g : Grammar σ τ α} {bound more : σ.Name → Prop}
    (h : g.Scoped captures hole bound)
    (hmore : ∀ name, bound name → more name ∨ captures hole name) :
    g.Scoped captures hole more := by
  have hinner : ∀ {bound more : σ.Name → Prop} {name : σ.Name},
      (∀ other, bound other → more other ∨ captures hole other) →
      ∀ other, other = name ∨ bound other →
        (other = name ∨ more other) ∨ captures hole other := by
    rintro bound more name hmore other (hname | hbound)
    · exact .inl (.inl hname)
    · exact (hmore other hbound).imp_left .inr
  induction g generalizing bound more with
  | succeed | fail | satisfy | eof => trivial
  | bind g next ihg ihnext => exact ⟨ihg h.1 hmore, fun a => ihnext a (h.2 a) hmore⟩
  | map f g ihg => exact ihg h hmore
  | pair g h' ihg ihh => exact ⟨ihg h.1 hmore, ihh h.2 hmore⟩
  | keepRight g h' ihg ihh => exact ⟨ihg h.1 hmore, ihh h.2 hmore⟩
  | keepLeft g h' ihg ihh => exact ⟨ihg h.1 hmore, ihh h.2 hmore⟩
  | orElse g h' ihg ihh => exact ⟨ihg h.1 hmore, ihh h.2 hmore⟩
  | optional g ihg => exact ihg h hmore
  | many g ihg => exact ihg h hmore
  | label name g ihg => exact ihg h hmore
  | commit g ihg => exact ihg h hmore
  | deferred name => exact fun taken htaken => (h taken htaken).elim (hmore taken) .inr
  | recursive name body ih => exact ⟨h.1, ih h.2 (hinner hmore)⟩
  | handle name => exact h.elim (hmore name) .inr
  | withRule name phase body g ihbody ihg =>
      exact ⟨h.1, ihbody h.2.1 (hinner hmore), ihg h.2.2 (hinner hmore)⟩
  | around before after g => exact h.elim

/-- A scoped grammar with its hole filled by a plain one is plain. -/
theorem Grammar.Scoped.plain_fill {side : Side}
    {filling : Grammar (σ.knot hole) τ (σ.Value hole)} (hfilling : filling.Plain)
    {g : Grammar σ τ α} {bound : σ.Name → Prop} (h : g.Scoped captures hole bound) :
    (Grammar.fill hole side filling g).Plain := by
  induction g generalizing bound with
  | succeed | fail | satisfy | eof | handle => trivial
  | bind g next ihg ihnext => exact ⟨ihg h.1, fun a => ihnext a (h.2 a)⟩
  | map f g ihg => exact ihg h
  | pair g h' ihg ihh => exact ⟨ihg h.1, ihh h.2⟩
  | keepRight g h' ihg ihh => exact ⟨ihg h.1, ihh h.2⟩
  | keepLeft g h' ihg ihh => exact ⟨ihg h.1, ihh h.2⟩
  | orElse g h' ihg ihh => exact ⟨ihg h.1, ihh h.2⟩
  | optional g ihg => exact ihg h
  | many g ihg => exact ihg h
  | label name g ihg => exact ihg h
  | commit g ihg => exact ihg h
  | deferred name =>
      by_cases hname : hole = name
      · subst hname
        simpa [Grammar.fill] using hfilling
      · simp [Grammar.fill, hname, Grammar.Plain, Grammar.Obeys, Discipline.plain]
  | recursive name body ih => exact ih h.2
  | withRule name phase body g ihbody ihg => exact ⟨ihbody h.2.1, ihg h.2.2⟩
  | around before after g => exact h.elim

/-- A rule that is found in a scope is scoped where it is at home. -/
theorem Scope.Scoped.find? {scope : Scope σ τ} (h : scope.Scoped captures hole) {name : σ.Name}
    {rule : Binding σ τ name} (hrule : scope.find? name = some rule) :
    rule.home.Scoped captures hole ∧ rule.body.Scoped captures hole rule.home.Binds := by
  obtain ⟨outer, heq, hhome, -, hbody⟩ := All.find? h hrule
  rw [heq] at hhome ⊢
  exact ⟨hhome, hbody⟩

/-- A scope finds the names that it binds. -/
theorem Scope.Binds.find? {scope : Scope σ τ} {name : σ.Name} (h : scope.Binds name) :
    ∃ rule, scope.find? name = some rule := by
  induction scope with
  | empty => exact h.elim
  | rule outer other phase body ih =>
      by_cases ho : other = name
      · subst ho
        exact ⟨_, find?_rule_self outer other phase body⟩
      · rw [find?_rule_of_ne ho]
        exact ih (h.resolve_left fun heq => ho heq.symm)

/-- What is taken from outside is not found within the rule with the hole. -/
theorem Scope.Scoped.find?_of_captures {scope : Scope σ τ} (h : scope.Scoped captures hole)
    {name : σ.Name} (hname : captures hole name) : scope.find? name = none := by
  induction scope with
  | empty => rfl
  | rule outer other phase body ih =>
      have ho : other ≠ name := fun heq => h.2.1 (heq ▸ hname)
      rw [find?_rule_of_ne ho]
      exact ih h.1

end

/-! ### What the handles stand for -/

namespace Scope

variable {rules : Rules σ τ} {hole : σ.Name} {side : Side} {outer : Scope (σ.knot hole) τ}

/-- Within the rule with the hole, a handle stands for the rule that it stands for in the grammar,
with its hole filled, or for what it stands for outside. -/
theorem find?_fill (scope : Scope σ τ) (name : σ.Name) :
    (scope.fill rules hole side outer).find? (σ.copy hole .tied name) =
      match scope.find? name with
      | some found =>
        some ⟨found.phase, rules.fill hole side found.body,
          found.home.fill rules hole side outer⟩
      | none => outer.find? (σ.copy hole .tied name) := by
  induction scope with
  | empty => rfl
  | rule inner other phase body ih =>
      by_cases ho : other = name
      · subst ho
        rw [find?_rule_self]
        exact find?_rule_self _ _ _ _
      · rw [fill, find?_rule_of_ne ho, find?_rule_of_ne (σ.copy_ne ho .tied)]
        exact ih

/-- The handle of the rule with the hole always stands for what it stands for outside. -/
theorem find?_fill_own (scope : Scope σ τ) :
    (scope.fill rules hole side outer).find? (σ.own hole) = outer.find? (σ.own hole) := by
  induction scope with
  | empty => rfl
  | rule inner other phase body ih =>
      rw [fill, find?_rule_of_ne (σ.own_ne_copy hole .tied other).symm]
      exact ih

end Scope

/-! ### The surroundings of a knot -/

/-- The scope in which the rule with the hole is run when it is tied to its own handle. -/
@[reducible]
def Rules.home (rules : Rules σ τ) (hole : σ.Name) (outer : Scope (σ.knot hole) τ) :
    Scope (σ.knot hole) τ :=
  outer.rule (σ.own hole) .defined (rules.fill hole .tied (rules hole))

/-- A scope in which the handles taken from outside stand for what they stand for in `world`. -/
def Scope.Agrees (captures : σ.Name → σ.Name → Prop) (hole : σ.Name)
    (outer world : Scope (σ.knot hole) τ) : Prop :=
  ∀ name, captures hole name →
    outer.find? (σ.copy hole .tied name) = world.find? (σ.copy hole .tied name)

section

variable {captures : σ.Name → σ.Name → Prop} {hole : σ.Name} {rules : Rules σ τ}
  {outer world : Scope (σ.knot hole) τ}

theorem Scope.Agrees.refl (world : Scope (σ.knot hole) τ) : world.Agrees captures hole world :=
  fun _ _ => rfl

/-- The rules within the rule with the hole do not hide what is outside, -/
theorem Scope.Agrees.fill (h : outer.Agrees captures hole world) (rules : Rules σ τ)
    {scope : Scope σ τ} (hscope : scope.Scoped captures hole) (side : Side) :
    (scope.fill rules hole side outer).Agrees captures hole world := by
  intro name hname
  rw [find?_fill, hscope.find?_of_captures hname]
  exact h name hname

/-- nor does the rule with the hole itself. -/
theorem Scope.Agrees.home (h : outer.Agrees captures hole world) (rules : Rules σ τ) :
    (rules.home hole outer).Agrees captures hole world := by
  intro name hname
  rw [find?_rule_of_ne (σ.own_ne_copy hole .tied name)]
  exact h name hname

/-- What fills the hole is plain. -/
theorem Rules.Scoped.plain_filling (hrules : rules.Scoped captures hole) (side : Side) :
    (rules.filling hole side).Plain := by
  cases side with
  | tied => trivial
  | wrapped => trivial
  | unrolled =>
      have hhandle : (Grammar.handle (σ.own hole) : Grammar (σ.knot hole) τ _).Plain := trivial
      exact (hrules.rule hole).plain_fill hhandle

/-- The table of a knot is plain. -/
theorem Rules.Scoped.plain_knot (hrules : rules.Scoped captures hole) :
    (rules.knot hole).Plain
  | .own => (hrules.rule hole).plain_fill (hrules.plain_filling .wrapped)
  | .copy side name => (hrules.rule name).plain_fill (hrules.plain_filling side)

/-- The rule with the hole is scoped where nothing is bound. -/
theorem Rules.Scoped.scoped_hole (hrules : rules.Scoped captures hole) :
    (rules hole).Scoped captures hole (Scope.empty : Scope σ τ).Binds :=
  (hrules.rule hole).mono fun _ hname => .inr hname

end

/-! ### Two sides of a knot compared -/

section

variable [Quote τ] {captures : σ.Name → σ.Name → Prop} {hole : σ.Name} {rules : Rules σ τ}
  {C : Comparison τ} {a b : Side} {outer outer' world : Scope (σ.knot hole) τ}

/-- **One level of references**: two sides compare if they do so in the hole, behind references, and
with the handles from outside. -/
theorem Grammar.Scoped.compares_interpret {call call' : Interpreter (σ.knot hole) τ}
    {turns more : Nat} (hturns : C.Turns turns more) (hrules : rules.Scoped captures hole)
    (hcall : ∀ {α : Type} {scope : Scope σ τ} {g : Grammar σ τ α}, scope.Scoped captures hole →
      g.Scoped captures hole scope.Binds →
        C.Parsers (call (scope.fill rules hole a outer) (rules.fill hole a g))
          (call' (scope.fill rules hole b outer') (rules.fill hole b g)))
    (hhole : ∀ {scope : Scope σ τ}, scope.Scoped captures hole →
      C.Parsers
        ((rules.filling hole a).interpret (rules.knot hole) call turns
          (scope.fill rules hole a outer))
        ((rules.filling hole b).interpret (rules.knot hole) call' more
          (scope.fill rules hole b outer')))
    (houter : ∀ {name}, captures hole name →
      C.Parsers
        ((Grammar.handle (σ.copy hole .tied name)).interpret (rules.knot hole) call turns outer)
        ((Grammar.handle (σ.copy hole .tied name)).interpret (rules.knot hole) call' more outer'))
    {g : Grammar σ τ α} {scope : Scope σ τ} (hscope : scope.Scoped captures hole)
    (hg : g.Scoped captures hole scope.Binds) :
    C.Parsers
      ((rules.fill hole a g).interpret (rules.knot hole) call turns
        (scope.fill rules hole a outer))
      ((rules.fill hole b g).interpret (rules.knot hole) call' more
        (scope.fill rules hole b outer')) := by
  induction g generalizing scope with
  | succeed value => exact .observed (.succeed value)
  | fail message => exact .observed (.fail message)
  | satisfy expected test => exact .observed (.satisfy expected test)
  | eof => exact .observed .eof
  | bind g next ihg ihnext =>
      exact .observed (.bind (ihg hscope hg.1) fun a => ihnext a hscope (hg.2 a))
  | map f g ihg => exact .observed (.map (ihg hscope hg) f)
  | pair g h ihg ihh => exact .observed (.pair (ihg hscope hg.1) (ihh hscope hg.2))
  | keepRight g h ihg ihh => exact .observed (.keepRight (ihg hscope hg.1) (ihh hscope hg.2))
  | keepLeft g h ihg ihh => exact .observed (.keepLeft (ihg hscope hg.1) (ihh hscope hg.2))
  | orElse g h ihg ihh => exact .observed (.orElse (ihg hscope hg.1) (ihh hscope hg.2))
  | optional g ihg => exact .observed (.optional (ihg hscope hg))
  | many g ihg => exact .observed (.many (ihg hscope hg) hturns)
  | label name g ihg => exact .observed (.label name (ihg hscope hg))
  | commit g ihg => exact .observed (.commit (ihg hscope hg))
  | deferred name =>
      by_cases hname : hole = name
      · subst hname
        have hfill : ∀ side, rules.fill hole side (.deferred hole) = rules.filling hole side := by
          intro side
          simp [Rules.fill, Grammar.fill]
        rw [hfill, hfill]
        exact hhole hscope
      · have hfill : ∀ side, rules.fill hole side (.deferred name) =
            .deferred (σ.copy hole side name) := by
          intro side
          simp [Rules.fill, Grammar.fill, hname]
        rw [hfill, hfill]
        exact .observed (.deferred (hcall hscope ((hrules.rule name).mono hg)))
  | recursive name body ih =>
      have hinner : (scope.rule name .defined body).Scoped captures hole := ⟨hscope, hg⟩
      exact .observed (ih hinner hg.2)
  | handle name =>
      have hfill : ∀ side, rules.fill hole side (.handle name) =
          .handle (σ.copy hole .tied name) := fun _ => rfl
      rw [hfill, hfill]
      cases hfind : scope.find? name with
      | none =>
          have hcaptures : captures hole name := by
            refine hg.resolve_left fun hbound => ?_
            obtain ⟨rule, hrule⟩ := hbound.find?
            cases hfind.symm.trans hrule
          have houtside := houter hcaptures
          rw [interpret_handle, interpret_handle] at houtside ⊢
          rw [Scope.find?_fill, Scope.find?_fill, hfind]
          exact houtside
      | some rule =>
          obtain ⟨hhome, hbody⟩ := hscope.find? hfind
          rw [interpret_handle, interpret_handle, Scope.find?_fill, Scope.find?_fill, hfind]
          exact .observed (.handle (hcall hhome hbody) rule.phase)
  | withRule name phase body g _ ihg =>
      have hinner : (scope.rule name phase body).Scoped captures hole := ⟨hscope, hg.1, hg.2.1⟩
      exact .observed (ihg hinner hg.2.2)
  | around before after g => exact hg.elim

/-- A plain grammar compares with itself, and with itself with more fuel if the first may lag. -/
theorem Grammar.Plain.compares {rules : Rules σ τ} (hrules : rules.Plain) {fuel more : Nat}
    (hfuel : C.Turns fuel more) {scope : Scope σ τ} (hscope : scope.Plain) {g : Grammar σ τ α}
    (hg : g.Plain) : C.Parsers (parser rules fuel scope g) (parser rules more scope g) := by
  have hsame := (hg.composed hrules fuel hscope).compares C
  rcases hfuel with rfl | ⟨hlags, hle⟩
  · exact hsame
  · exact hsame.le_right hlags (parser_le rules hle scope g)

/-- A handle taken from outside compares with itself. -/
theorem Scope.Agrees.compares (hrules : rules.Scoped captures hole) (hworld : world.Plain)
    (h : outer.Agrees captures hole world) (h' : outer'.Agrees captures hole world)
    {fuel more turns turns' : Nat} (hfuel : C.Turns fuel more) {name : σ.Name}
    (hname : captures hole name) :
    C.Parsers
      ((Grammar.handle (σ.copy hole .tied name)).interpret (rules.knot hole)
        (Grammar.parser (rules.knot hole) fuel) turns outer)
      ((Grammar.handle (σ.copy hole .tied name)).interpret (rules.knot hole)
        (Grammar.parser (rules.knot hole) more) turns' outer') := by
  rw [Grammar.interpret_handle, Grammar.interpret_handle, h name hname, h' name hname]
  cases hfind : world.find? (σ.copy hole .tied name) with
  | none => exact .observed (.unusable _ _)
  | some rule =>
      obtain ⟨hhome, hbody⟩ := hworld.find? hfind
      have hbodies := hbody.compares (C := C) hrules.plain_knot hfuel hhome
      exact .observed (.handle hbodies rule.phase)

/-- In the hole of the tied side, the rule is run through its handle. -/
theorem Rules.interpret_filling_tied (rules : Rules σ τ) (call : Interpreter (σ.knot hole) τ)
    (turns : Nat) (scope : Scope σ τ) (outer : Scope (σ.knot hole) τ) :
    (rules.filling hole .tied).interpret (rules.knot hole) call turns
        (scope.fill rules hole .tied (rules.home hole outer)) =
      (Parser.nested (call (rules.home hole outer)
        (rules.fill hole .tied (rules hole)))).observed := by
  have hhandle : rules.filling hole .tied = .handle (σ.own hole) := rfl
  rw [hhandle, Grammar.interpret_handle, Scope.find?_fill_own, Scope.find?_rule_self]
  rfl

/-! ### Tied and wrapped -/

/-- **The tied and the wrapped side compare**, at every fuel and in every respect: a handle is as
deep as a reference. -/
theorem Rules.Scoped.compares_tied_wrapped (hrules : rules.Scoped captures hole)
    (C : Comparison τ) (hworld : world.Plain) (fuel : Nat)
    (houter : outer.Agrees captures hole world) (houter' : outer'.Agrees captures hole world)
    {scope : Scope σ τ} (hscope : scope.Scoped captures hole) {g : Grammar σ τ α}
    (hg : g.Scoped captures hole scope.Binds) :
    C.Parsers
      (Grammar.parser (rules.knot hole) fuel
        (scope.fill rules hole .tied (rules.home hole outer)) (rules.fill hole .tied g))
      (Grammar.parser (rules.knot hole) fuel (scope.fill rules hole .wrapped outer')
        (rules.fill hole .wrapped g)) := by
  -- The outer scope of the wrapped side is not fixed: it grows with every reference.
  induction fuel generalizing α outer' scope g with
  | zero => exact .exhausted
  | succ fuel ih =>
      refine Grammar.Scoped.compares_interpret (.inl rfl) hrules (fun hs h => ih houter' hs h) ?_
        ((houter.home rules).compares hrules hworld houter' (.inl rfl)) hscope hg
      intro scope hs
      -- Both sides run the rule with the hole anew, one level deeper.
      have hempty : (Scope.empty : Scope σ τ).Scoped captures hole := trivial
      have hrule := ih (houter'.fill rules hs .wrapped) hempty hrules.scoped_hole
      rw [rules.interpret_filling_tied]
      exact .observed (.nested (.calling_right .thunk hrule))

/-- So do the rules that these two sides make. -/
theorem Rules.Scoped.compares_rule (hrules : rules.Scoped captures hole) (C : Comparison τ)
    (hworld : world.Plain) (fuel : Nat) (houter : outer.Agrees captures hole world)
    (houter' : outer'.Agrees captures hole world) :
    C.Parsers (Grammar.parser (rules.knot hole) fuel outer (rules.tied hole))
      (Grammar.parser (rules.knot hole) fuel outer' (rules.fill hole .wrapped (rules hole))) := by
  cases fuel with
  | zero => exact .exhausted
  | succ fuel =>
      have hempty : (Scope.empty : Scope σ τ).Scoped captures hole := trivial
      exact .observed_left (hrules.compares_tied_wrapped C hworld (fuel + 1) houter houter' hempty
        hrules.scoped_hole)

/-! ### Wrapped and unrolled -/

/-- The wrapped and the unrolled side compare **where there is no limit**: the unrolled side has
the rule itself in the hole, which is a level less than a reference. -/
theorem Rules.Scoped.compares_wrapped_unrolled (hrules : rules.Scoped captures hole) (id : Nat)
    (hworld : world.Plain) (fuel : Nat) (houter : outer.Agrees captures hole world)
    (houter' : outer'.Agrees captures hole world) {scope : Scope σ τ}
    (hscope : scope.Scoped captures hole) {g : Grammar σ τ α}
    (hg : g.Scoped captures hole scope.Binds) :
    (Comparison.level τ id True).Parsers
      (Grammar.parser (rules.knot hole) fuel (scope.fill rules hole .wrapped outer)
        (rules.fill hole .wrapped g))
      (Grammar.parser (rules.knot hole) fuel (scope.fill rules hole .unrolled outer')
        (rules.fill hole .unrolled g)) := by
  induction fuel generalizing α scope g with
  | zero => exact .exhausted
  | succ fuel ih =>
      refine Grammar.Scoped.compares_interpret (.inl rfl) hrules (fun hs h => ih hs h) ?_
        (houter.compares hrules hworld houter' (.inl rfl)) hscope hg
      intro scope hs
      -- The rule in the hole may have the fuel of the whole.
      have hrule := hrules.compares_rule (.level τ id False) hworld fuel
        (houter'.fill rules hs .unrolled) (houter.fill rules hs .wrapped)
      have hmore := Grammar.parser_le (rules.knot hole) (Nat.le_succ fuel)
        (scope.fill rules hole .unrolled outer') (rules.tied hole)
      have hflip : (Comparison.level τ id True).Parsers _ _ := Comparison.level_flip hrule
      refine .observed_left (Comparison.level_nested_left ?_)
      exact .calling_left .thunk (hflip.le_right trivial hmore)

/-- The other way round, a reference takes one unit of fuel more than the rule itself. -/
theorem Rules.Scoped.compares_unrolled_wrapped (hrules : rules.Scoped captures hole) (id : Nat)
    (hworld : world.Plain) (fuel : Nat) (houter : outer.Agrees captures hole world)
    (houter' : outer'.Agrees captures hole world) {scope : Scope σ τ}
    (hscope : scope.Scoped captures hole) {g : Grammar σ τ α}
    (hg : g.Scoped captures hole scope.Binds) :
    (Comparison.level τ id True).Parsers
      (Grammar.parser (rules.knot hole) fuel (scope.fill rules hole .unrolled outer)
        (rules.fill hole .unrolled g))
      (Grammar.parser (rules.knot hole) (fuel + 1) (scope.fill rules hole .wrapped outer')
        (rules.fill hole .wrapped g)) := by
  induction fuel generalizing α scope g with
  | zero => exact fun _ _ _ _ _ => .lagging trivial _
  | succ fuel ih =>
      have hturns : (Comparison.level τ id True).Turns (fuel + 1) (fuel + 1 + 1) :=
        .inr ⟨trivial, Nat.le_succ _⟩
      have hfuel : (Comparison.level τ id True).Turns fuel (fuel + 1) :=
        .inr ⟨trivial, Nat.le_succ _⟩
      refine Grammar.Scoped.compares_interpret hturns hrules (fun hs h => ih hs h) ?_
        (houter.compares hrules hworld houter' hfuel) hscope hg
      intro scope hs
      have hrule := hrules.compares_rule (.level τ id True) hworld (fuel + 1)
        (houter.fill rules hs .unrolled) (houter'.fill rules hs .wrapped)
      refine .observed_right (Comparison.level_nested_right ?_)
      exact .calling_right .thunk hrule

/-- **A rule tied to its handle and a rule that refers to itself are the same rule.** On every
stream and store, whatever the limit, they end alike with the same fuel, or do not end with it:
with the same outcome, the same requests to the supply and the same log. Without a limit the tied
rule is also the same as its unrolling. -/
theorem Rules.Scoped.tied_eq_wrapped (hrules : rules.Scoped captures hole)
    {scope : Scope (σ.knot hole) τ} (hscope : scope.Plain) (s : Stream) (sources : Sources τ) :
    (∀ fuel,
      ((Grammar.parser (rules.knot hole) fuel scope (rules.tied hole) s).run sources).map
          Step.seen =
        ((Grammar.parser (rules.knot hole) fuel scope (rules.knot hole (σ.own hole)) s).run
          sources).map Step.seen) ∧
    ((sources.get s.source).config.maxDepth = none → ∀ seen,
      (∃ fuel,
        ((Grammar.parser (rules.knot hole) fuel scope (rules.tied hole) s).run sources).map
          Step.seen = some seen) ↔
      ∃ fuel,
        ((Grammar.parser (rules.knot hole) fuel scope
          (rules.fill hole .unrolled (rules hole)) s).run sources).map Step.seen = some seen) := by
  have htied : ∀ fuel,
      ((Grammar.parser (rules.knot hole) fuel scope (rules.tied hole) s).run sources).map
          Step.seen =
        ((Grammar.parser (rules.knot hole) fuel scope (rules.knot hole (σ.own hole)) s).run
          sources).map Step.seen := by
    intro fuel
    have hcompares := hrules.compares_rule (.same τ False) hscope fuel (.refl scope) (.refl scope)
    exact (hcompares trivial).seen_eq sources
  refine ⟨htied, fun hlimit seen => ?_⟩
  have hempty : (Scope.empty : Scope σ τ).Scoped captures hole := trivial
  have hcomposed : ∀ side fuel, Parser.Composed (Grammar.parser (rules.knot hole) fuel scope
      (rules.fill hole side (rules hole))) := by
    intro side fuel
    have hplain : (rules.fill hole side (rules hole)).Plain :=
      (hrules.rule hole).plain_fill (hrules.plain_filling side)
    exact hplain.composed hrules.plain_knot fuel hscope
  constructor
  · rintro ⟨fuel, hseen⟩
    have hcompares := hrules.compares_wrapped_unrolled s.source hscope fuel (.refl scope)
      (.refl scope) hempty hrules.scoped_hole
    have hwrapped := (htied fuel).symm.trans hseen
    exact ⟨fuel, (hcomposed _ _).seen_of_level (hcomposed _ _) hcompares hlimit hwrapped⟩
  · rintro ⟨fuel, hseen⟩
    have hcompares := hrules.compares_unrolled_wrapped s.source hscope fuel (.refl scope)
      (.refl scope) hempty hrules.scoped_hole
    have hwrapped := (hcomposed _ _).seen_of_level (hcomposed _ _) hcompares hlimit hseen
    exact ⟨fuel + 1, (htied (fuel + 1)).trans hwrapped⟩

end

/-! ### Nested brackets with a hole -/

namespace Brackets

/-- Two names of rules, whose values are numbers. -/
def pairNames : Signature where
  Name := Bool
  Value _ := Nat
  decEq := inferInstance

/-- **Nested brackets with a hole** for what stands inside, which is referred to in two steps. -/
def template : Rules pairNames Bool
  | false => .orElse
      (.map (fun n : Nat => n + 1)
        (.keepRight (.satisfy "an opening bracket" ⟨fun t => t, fun _ => []⟩)
          (.keepLeft (.deferred true)
            (.commit (.satisfy "a closing bracket" ⟨fun t => !t, fun _ => []⟩)))))
      (.succeed (0 : Nat))
  | true => .deferred false

theorem template_scoped : template.Scoped (fun _ _ => False) false
  | false => ⟨⟨trivial, fun _ h => h.elim, trivial⟩, trivial⟩
  | true => fun _ h => h.elim

/-- The rule made from the template that is tied to its handle. -/
def tied : Grammar (pairNames.knot false) Bool Nat := template.tied false

/-- The rule made from the template that refers to itself. -/
def wrapped : Grammar (pairNames.knot false) Bool Nat := template.knot false (pairNames.own false)

/-- The template with the tied rule in its hole. -/
def unrolled : Grammar (pairNames.knot false) Bool Nat :=
  template.fill false .unrolled (template false)

/-- Under a limit of one, the brackets are refused to the rule that refers to itself, as they are
to the tied one. Without a limit, they are parsed by the unrolled rule as by the tied one. -/
theorem tied_eq_wrapped_pair :
    ((Grammar.parser (template.knot false) 5 .empty wrapped .start).run
        (store (some 1) [true, false])).map Step.value =
      some (.error ⟨Message.recursionLimit 1, some false, 1⟩) ∧
    ∃ fuel, ((Grammar.parser (template.knot false) fuel .empty unrolled .start).run
        (store none [true, false])).map Step.value = some (.ok 1 ⟨0, 2⟩) := by
  have hlimited : ((Grammar.parser (template.knot false) 5 .empty tied .start).run
      (store (some 1) [true, false])).map Step.value =
        some (.error ⟨Message.recursionLimit 1, some false, 1⟩) := by
    decide +kernel
  have hfree : ((Grammar.parser (template.knot false) 5 .empty tied .start).run
      (store none [true, false])).map Step.value = some (.ok 1 ⟨0, 2⟩) := by
    decide +kernel
  have hscope : (Scope.empty : Scope (pairNames.knot false) Bool).Plain := trivial
  constructor
  · obtain ⟨hsame, -⟩ :=
      template_scoped.tied_eq_wrapped hscope .start (store (some 1) [true, false])
    have hvalue := congrArg (Option.map Prod.fst) (hsame 5)
    rw [← Step.map_value_eq, ← Step.map_value_eq] at hvalue
    exact hvalue.symm.trans hlimited
  · obtain ⟨-, hunrolled⟩ :=
      template_scoped.tied_eq_wrapped hscope .start (store none [true, false])
    obtain ⟨step, hstep, hok⟩ := Option.map_eq_some_iff.mp hfree
    have hseen : ((Grammar.parser (template.knot false) 5 .empty tied .start).run
        (store none [true, false])).map Step.seen = some step.seen := by
      rw [hstep]
      rfl
    obtain ⟨fuel, hfuel⟩ := (hunrolled rfl step.seen).mp ⟨5, hseen⟩
    have hvalue := congrArg (Option.map Prod.fst) hfuel
    rw [← Step.map_value_eq] at hvalue
    exact ⟨fuel, hvalue.trans (congrArg some hok)⟩

end Brackets

end Backtrack
