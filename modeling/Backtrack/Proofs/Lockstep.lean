import Backtrack.Proofs.Fatal

/-!
# Two Runs in Lockstep

A parse is run twice, over the same tokens, once under lenient settings and once under
strict ones: the strict limit is lower or the strict policy forbids stalls. The two runs do
the same, event by event, until for the first time the strict settings forbid what the
lenient ones allow. From there on nothing can bring the strict run back: it fails with the
error of that moment, whatever the lenient run does afterwards.

Under equal settings there is no such moment, and the two runs differ only in what they do
to the memory of their sources.

## Main definitions

* `Config.Tolerates`: one setting allows at least what the other allows.
* `Sources.Tolerates`: two stores over the same tokens, the one under more lenient settings.
* `Parting`: how a strict run can part from a lenient one.
* `Lockstep`: the same events, up to a parting.

## Main results

* `Lockstep.bind`: runs in lockstep can be gone on with.
* `Parser.Composed.lockstep`: every composed parser runs in lockstep with itself.
-/

namespace Backtrack

variable {τ α β : Type}

/-- Settings that **allow at least what others allow**. -/
structure Config.Tolerates (lenient strict : Config) : Prop where
  /-- A limit is met by a limit that is not greater. -/
  maxDepth : ∀ m, lenient.maxDepth = some m → ∃ n, strict.maxDepth = some n ∧ n ≤ m
  /-- Stalls are allowed where the others allow them. -/
  repetition : strict.repetition = .stop → lenient.repetition = .stop

theorem Config.Tolerates.refl (config : Config) : config.Tolerates config :=
  ⟨fun m h => ⟨m, h, Nat.le_refl m⟩, id⟩

/-- Stores whose source `id` has **the same tokens and counter**, in the first under settings
that allow at least what those in the second do. -/
structure Sources.Tolerates (id : Nat) (lenient strict : Sources τ) : Prop where
  lenient_lt : id < lenient.next
  strict_lt : id < strict.next
  token_eq : (lenient.get id).token = (strict.get id).token
  depth_eq : (lenient.get id).depth = (strict.get id).depth
  /-- The counter is within the strict limit. -/
  depth_le : ∀ n, (strict.get id).config.maxDepth = some n → (strict.get id).depth ≤ n
  config : (lenient.get id).config.Tolerates (strict.get id).config

/-- **How a strict run parts** from a lenient one on the source `id`: the event with which the
lenient run goes on, and the events and the error with which the strict one is aborted. -/
inductive Parting (id : Nat) (lenient strict : Sources τ) :
    Event τ → List (Event τ) → Failure τ → Prop where
  /-- The strict limit forbids a reference. -/
  | refused {place : Stream} {limit : Nat} (hplace : place.source = id)
      (hstrict : (strict.get id).config.maxDepth = some limit)
      (hlenient : (lenient.get id).config.maxDepth ≠ some limit) :
      Parting id lenient strict (.descended place (limit + 1))
        [.refused place limit, .inspected place]
        ⟨Message.recursionLimit limit, strict.token place, place.position⟩
  /-- The strict policy forbids a stall. -/
  | stalled {place : Stream} {items : Nat} (hplace : place.source = id)
      (hstrict : (strict.get id).config.repetition = .error)
      (hlenient : (lenient.get id).config.repetition = .stop) :
      Parting id lenient strict (.stalled place items .stop)
        [.stalled place items .error, .inspected place]
        ⟨Message.noProgress, strict.token place, place.position⟩

/-- **Lockstep** of a lenient and a strict run: neither gives a result, or both do the same, or
the strict one parts in one of the ways `parts` and only unwinds its error. -/
inductive Lockstep (parts : Event τ → List (Event τ) → Failure τ → Prop) :
    Option (Step τ (Outcome τ α)) → Option (Step τ (Outcome τ α)) → Prop where
  | exhausted : Lockstep parts none none
  | together (value : Outcome τ α) (lenient strict : Sources τ) (events : List (Event τ)) :
      Lockstep parts (some ⟨value, lenient, events⟩) (some ⟨value, strict, events⟩)
  | parted {lenient : Option (Step τ (Outcome τ α))} {failure : Failure τ} {mark : Event τ}
      {cause : List (Event τ)} (strict : Sources τ) (before unwinding : List (Event τ))
      (hparts : parts mark cause failure) (hunwinding : Unwinding failure unwinding)
      (hlenient : ∀ step, lenient = some step → before ++ [mark] <+: step.events) :
      Lockstep parts lenient (some ⟨.error failure, strict, before ++ cause ++ unwinding⟩)

namespace Lockstep

variable {parts : Event τ → List (Event τ) → Failure τ → Prop}
  {lenient strict : Option (Step τ (Outcome τ α))}

/-- The same events can come before both. -/
theorem after (h : Lockstep parts lenient strict) (events : List (Event τ)) :
    Lockstep parts (lenient.map (Step.after events)) (strict.map (Step.after events)) := by
  cases h with
  | exhausted => exact .exhausted
  | together value lenient strict own => exact .together value lenient strict (events ++ own)
  | @parted lenient failure mark cause strict before unwinding hparts hunwinding hlenient =>
      have hevents : events ++ (before ++ cause ++ unwinding) =
          events ++ before ++ cause ++ unwinding := by
        simp only [List.append_assoc]
      rw [Option.map_some, Step.after, hevents]
      refine .parted strict (events ++ before) unwinding hparts hunwinding fun step hstep => ?_
      obtain ⟨own, hown, rfl⟩ := Option.map_eq_some_iff.mp hstep
      rw [List.append_assoc]
      exact (List.prefix_append_right_inj events).mpr (hlenient own hown)

/-- **Runs in lockstep can be gone on with**, provided that going on from an error only
unwinds it and that the two go on in lockstep where they are together. -/
theorem bind {r : Run τ (Outcome τ α)} {f : Outcome τ α → Run τ (Outcome τ β)}
    {lenient strict : Sources τ} (h : Lockstep parts (r.run lenient) (r.run strict))
    (herror : ∀ failure sources, ∃ last unwinding, Unwinding failure unwinding ∧
      (f (.error failure)).run sources = some ⟨.error failure, last, unwinding⟩)
    (htogether : ∀ {value first second events},
      r.run lenient = some ⟨value, first, events⟩ →
      r.run strict = some ⟨value, second, events⟩ →
      Lockstep parts ((f value).run first) ((f value).run second)) :
    Lockstep parts ((r >>= f).run lenient) ((r >>= f).run strict) := by
  rw [Run.run_bind, Run.run_bind]
  generalize hfirst : r.run lenient = first at h htogether
  generalize hsecond : r.run strict = second at h htogether
  cases h with
  | exhausted => exact .exhausted
  | together value _ _ events => exact (htogether rfl rfl).after events
  | @parted _ failure mark cause sources before unwinding hparts hunwinding hbefore =>
      obtain ⟨last, more, hmore, hf⟩ := herror failure sources
      rw [Option.bind_some, hf, Option.map_some, Step.after, List.append_assoc _ unwinding]
      refine .parted last before (unwinding ++ more) hparts (hunwinding.append hmore) ?_
      intro step hstep
      obtain ⟨own, hown, hlast⟩ := Option.bind_eq_some_iff.mp hstep
      obtain ⟨rest, -, rfl⟩ := Option.map_eq_some_iff.mp hlast
      exact (hbefore own hown).trans (List.prefix_append own.events rest.events)

/-- More ways to part may be admitted. -/
theorem mono (h : Lockstep parts lenient strict)
    {others : Event τ → List (Event τ) → Failure τ → Prop}
    (hparts : ∀ {mark cause failure}, parts mark cause failure → others mark cause failure) :
    Lockstep others lenient strict := by
  cases h with
  | exhausted => exact .exhausted
  | together value lenient strict events => exact .together value lenient strict events
  | parted strict before unwinding hmark hunwinding hlenient =>
      exact .parted strict before unwinding (hparts hmark) hunwinding hlenient

end Lockstep

/-! ### Stores over the same tokens -/

section

variable {s : Stream} {lenient strict : Sources τ}

/-- The ways to part are the same for other stores with these settings and tokens. -/
theorem Parting.congr {id : Nat} {first second : Sources τ}
    (hfirst : (first.get id).config = (lenient.get id).config)
    (hsecond : (second.get id).config = (strict.get id).config)
    (htoken : (second.get id).token = (strict.get id).token) {mark : Event τ}
    {cause : List (Event τ)} {failure : Failure τ}
    (h : Parting id first second mark cause failure) :
    Parting id lenient strict mark cause failure := by
  have hfound : ∀ place : Stream, place.source = id → second.token place = strict.token place := by
    intro place hplace
    rw [Sources.token, hplace, htoken, ← hplace, Sources.token]
  cases h with
  | refused hplace hstrict hlenient =>
      rw [hsecond] at hstrict
      rw [hfirst] at hlenient
      rw [hfound _ hplace]
      exact .refused hplace hstrict hlenient
  | stalled hplace hstrict hlenient =>
      rw [hsecond] at hstrict
      rw [hfirst] at hlenient
      rw [hfound _ hplace]
      exact .stalled hplace hstrict hlenient

/-- Stores agree on the token of every position. -/
theorem Sources.Tolerates.token (h : Sources.Tolerates s.source lenient strict) :
    lenient.token s = strict.token s := by
  rw [Sources.token, h.token_eq, Sources.token]

/-- A reference that both settings admit is entered in both. -/
theorem Sources.Tolerates.enter (h : Sources.Tolerates s.source lenient strict)
    (hroom : (strict.get s.source).config.admits (strict.get s.source).depth = .ok ()) :
    Sources.Tolerates s.source (lenient.modify s.source .enter)
      (strict.modify s.source .enter) := by
  have hfirst : (lenient.modify s.source .enter).get s.source = (lenient.get s.source).enter :=
    Sources.get_modify_self h.lenient_lt
  have hsecond : (strict.modify s.source .enter).get s.source = (strict.get s.source).enter :=
    Sources.get_modify_self h.strict_lt
  constructor
  · rw [Sources.next_modify]
    exact h.lenient_lt
  · rw [Sources.next_modify]
    exact h.strict_lt
  · rw [hfirst, hsecond, Source.token_enter, Source.token_enter, h.token_eq]
  · rw [hfirst, hsecond, Source.enter, Source.enter, h.depth_eq]
  · intro n hn
    rw [hsecond] at hn ⊢
    exact Config.admits_eq_ok_iff.mp hroom n hn
  · rw [hfirst, hsecond]
    exact h.config

/-- What the strict settings admit, the lenient ones admit. -/
theorem Sources.Tolerates.admits (h : Sources.Tolerates s.source lenient strict)
    (hroom : (strict.get s.source).config.admits (strict.get s.source).depth = .ok ()) :
    (lenient.get s.source).config.admits (lenient.get s.source).depth = .ok () := by
  refine Config.admits_eq_ok_iff.mpr fun m hm => ?_
  obtain ⟨n, hn, hle⟩ := h.config.maxDepth m hm
  have hlt := Config.admits_eq_ok_iff.mp hroom n hn
  rw [h.depth_eq]
  omega

end

/-! ### Two parses -/

variable [Quote τ]

section

variable {s : Stream} {lenient strict : Sources τ}

/-- Two parses leave stores that agree as the stores did in which they began. -/
theorem Sources.Tolerates.course (h : Sources.Tolerates s.source lenient strict)
    {first second : Step τ (Outcome τ α)} (hfirst : Course s lenient first)
    (hsecond : Course s strict second) :
    Sources.Tolerates s.source first.sources second.sources := by
  constructor
  · rw [hfirst.next_eq]
    exact h.lenient_lt
  · rw [hsecond.next_eq]
    exact h.strict_lt
  · rw [hfirst.token_eq, hsecond.token_eq, h.token_eq]
  · rw [hfirst.depth_eq h.lenient_lt, hsecond.depth_eq h.strict_lt, h.depth_eq]
  · rw [hsecond.config_eq, hsecond.depth_eq h.strict_lt]
    exact h.depth_le
  · rw [hfirst.config_eq, hsecond.config_eq]
    exact h.config

end

namespace Parser.Composed

/-- To go on after two parses that ended alike, each where it left its store. -/
private theorem goOn {s t : Stream} {lenient strict first second : Sources τ}
    (h : Sources.Tolerates s.source lenient strict) {value : Outcome τ α}
    {events : List (Event τ)} (hfirst : Course s lenient ⟨value, first, events⟩)
    (hsecond : Course s strict ⟨value, second, events⟩) (ht : t.source = s.source)
    {q : Parser τ β}
    (hq : Sources.Tolerates t.source first second →
      Lockstep (Parting t.source first second) ((q t).run first) ((q t).run second)) :
    Lockstep (Parting s.source lenient strict) ((q t).run first) ((q t).run second) := by
  rw [ht] at hq
  refine (hq (h.course hfirst hsecond)).mono fun hparts => ?_
  exact hparts.congr (hfirst.config_eq _) (hsecond.config_eq _) (hsecond.token_eq _)

/-- A reference is admitted in both runs, refused in both, or refused in the strict one. -/
private theorem lockstep_nested {p : Parser τ α} (hp : Composed p) {s : Stream}
    {lenient strict : Sources τ} (h : Sources.Tolerates s.source lenient strict)
    (ih : ∀ {lenient strict : Sources τ}, Sources.Tolerates s.source lenient strict →
      Lockstep (Parting s.source lenient strict) ((p s).run lenient) ((p s).run strict)) :
    Lockstep (Parting s.source lenient strict) ((Parser.nested p s).run lenient)
      ((Parser.nested p s).run strict) := by
  cases hstrict : (strict.get s.source).config.admits (strict.get s.source).depth with
  | error limit =>
      rw [run_nested, run_nested, hstrict]
      obtain ⟨hlimit, hle⟩ := Config.admits_eq_error_iff.mp hstrict
      have hdepth : (strict.get s.source).depth = limit :=
        Nat.le_antisymm (h.depth_le limit hlimit) hle
      cases hlenient : (lenient.get s.source).config.admits (lenient.get s.source).depth with
      | error m =>
          -- The lenient limit is reached as well, so it is the strict one.
          obtain ⟨hm, hmle⟩ := Config.admits_eq_error_iff.mp hlenient
          obtain ⟨n, hn, hnm⟩ := h.config.maxDepth m hm
          obtain rfl : limit = n := Option.some.inj (hlimit.symm.trans hn)
          rw [h.depth_eq, hdepth] at hmle
          obtain rfl : m = limit := Nat.le_antisymm hmle hnm
          rw [h.token]
          exact .together _ _ _ _
      | ok _ =>
          have hother : (lenient.get s.source).config.maxDepth ≠ some limit := by
            intro hm
            have hlt := Config.admits_eq_ok_iff.mp hlenient limit hm
            rw [h.depth_eq] at hlt
            omega
          have hparts : Parting s.source lenient strict (.descended s (limit + 1))
              [.refused s limit, .inspected s]
              ⟨Message.recursionLimit limit, strict.token s, s.position⟩ :=
            .refused rfl hlimit hother
          refine .parted _ [] [] hparts (.nil _) fun step hstep => ?_
          obtain ⟨inner, -, rfl⟩ := Option.map_eq_some_iff.mp hstep
          rw [h.depth_eq, hdepth]
          exact ⟨_, rfl⟩
  | ok _ =>
      have hlenient := h.admits hstrict
      have hinner := h.enter hstrict
      rw [Parser.nested, Run.carry_eq, Run.run_toRun_bind, Run.run_toRun_bind, Stream.run_descend,
        Stream.run_descend, hlenient, hstrict, h.depth_eq]
      have hparts : ∀ {mark cause failure},
          Parting s.source (lenient.modify s.source .enter) (strict.modify s.source .enter)
            mark cause failure → Parting s.source lenient strict mark cause failure := by
        intro mark cause failure hparting
        refine hparting.congr ?_ ?_ ?_
        · rw [Sources.get_modify_self h.lenient_lt]
          rfl
        · rw [Sources.get_modify_self h.strict_lt]
          rfl
        · rw [Sources.get_modify_self h.strict_lt, Source.token_enter]
      refine (Lockstep.bind ((ih hinner).mono hparts) ?_ ?_).after _
      · intro failure sources
        exact ⟨_, _, .ascended failure s _, rfl⟩
      · intro value first second events hfirst hsecond
        have hlast := hinner.course (hp.course hfirst) (hp.course hsecond)
        have hdepth : ((first.modify s.source .leave).get s.source).depth =
            ((second.modify s.source .leave).get s.source).depth := by
          rw [Sources.get_modify_self hlast.lenient_lt, Sources.get_modify_self hlast.strict_lt,
            Source.leave, Source.leave, hlast.depth_eq]
        simp only [Run.carry_eq, Run.run_toRun_bind, Stream.run_ascend, Run.run_pure,
          Option.map_some, hdepth]
        exact .together _ _ _ _

/-- A stall is an end in both runs, an error in both, or an error in the strict one. -/
private theorem lockstep_stall (items : List α) {s : Stream}
    {lenient strict first second : Sources τ} {value : Outcome τ α} {events : List (Event τ)}
    (h : Sources.Tolerates s.source lenient strict)
    (hfirst : Course s lenient ⟨value, first, events⟩)
    (hsecond : Course s strict ⟨value, second, events⟩) :
    Lockstep (Parting s.source lenient strict) (some ((stall items s).run first))
      (some ((stall items s).run second)) := by
  have hlast := h.course hfirst hsecond
  rw [run_stall, run_stall]
  cases hstrict : (second.get s.source).config.repetition with
  | stop =>
      rw [hlast.config.repetition hstrict]
      exact .together _ _ _ _
  | error =>
      cases hlenient : (first.get s.source).config.repetition with
      | stop =>
          have hparts : Parting s.source first second (.stalled s items.length .stop)
              [.stalled s items.length .error, .inspected s]
              ⟨Message.noProgress, second.token s, s.position⟩ :=
            .stalled rfl hstrict hlenient
          refine .parted _ [] [] (hparts.congr (hfirst.config_eq _) (hsecond.config_eq _)
            (hsecond.token_eq _)) (.nil _) fun step hstep => ?_
          obtain rfl := Option.some.inj hstep
          exact List.prefix_rfl
      | error =>
          rw [hlast.token]
          exact .together _ _ _ _

/-- **Every composed parser runs in lockstep with itself** on two stores over the same tokens,
the one under more lenient settings than the other. -/
theorem lockstep {p : Parser τ α} (hp : Composed p) {s : Stream} {lenient strict : Sources τ}
    (h : Sources.Tolerates s.source lenient strict) :
    Lockstep (Parting s.source lenient strict) ((p s).run lenient) ((p s).run strict) := by
  induction hp generalizing s lenient strict with
  | exhausted => exact .exhausted
  | succeed value => exact .together _ _ _ _
  | fail message =>
      rw [run_fail, run_fail, h.token]
      exact .together _ _ _ _
  | satisfy expected test =>
      rw [run_satisfy, run_satisfy, h.token]
      cases strict.token s with
      | none => exact .together _ _ _ _
      | some token =>
          by_cases ha : test.accepts token = true
          · simp only [ha, if_true]
            exact .together _ _ _ _
          · simp only [ha]
            exact .together _ _ _ _
  | eof =>
      rw [run_eof, run_eof, h.token]
      cases strict.token s <;> exact .together _ _ _ _
  | unusable phase message =>
      rw [run_unusable, run_unusable, h.token]
      exact .together _ _ _ _
  | calling callee _ ih =>
      rw [run_calling, run_calling]
      exact (ih h).after _
  | sequel hp _ ihp ihnext =>
      refine (ihp h).bind ?_ ?_
      · intro failure sources
        exact ⟨sources, [], .nil failure, rfl⟩
      · intro value first second events hfirst hsecond
        cases value with
        | ok value rest =>
            have hrest : rest.source = s.source := (hp.course hfirst).source_rest rfl
            exact goOn h (hp.course hfirst) (hp.course hsecond) hrest (ihnext value)
        | fail failure => exact .together _ _ _ _
        | error failure => exact .together _ _ _ _
  | orElse hp _ ihp ihq =>
      refine (ihp h).bind ?_ ?_
      · intro failure sources
        exact ⟨sources, [], .nil failure, rfl⟩
      · intro value first second events hfirst hsecond
        cases value with
        | fail failure => exact goOn h (hp.course hfirst) (hp.course hsecond) rfl ihq
        | ok value rest => exact .together _ _ _ _
        | error failure => exact .together _ _ _ _
  | label name _ ih =>
      refine (ih h).bind ?_ ?_
      · intro failure sources
        exact ⟨sources, [], .nil failure, rfl⟩
      · intro value first second events _ _
        cases value <;> exact .together _ _ _ _
  | commit _ ih =>
      refine (ih h).bind ?_ ?_
      · intro failure sources
        exact ⟨sources, [], .nil failure, rfl⟩
      · intro value first second events _ _
        cases value <;> exact .together _ _ _ _
  | nested hp ih => exact lockstep_nested hp h ih
  | attempt items hp _ ihp ihnext =>
      refine (ihp h).bind ?_ ?_
      · intro failure sources
        exact ⟨sources, [], .nil failure, rfl⟩
      · intro value first second events hfirst hsecond
        cases value with
        | ok item rest =>
            by_cases hr : rest.position = s.position
            · simp only [hr, if_true, Run.carry_eq, Run.run_toRun]
              exact lockstep_stall items h (hp.course hfirst) (hp.course hsecond)
            · simp only [hr, if_false]
              have hrest : rest.source = s.source := (hp.course hfirst).source_rest rfl
              exact goOn h (hp.course hfirst) (hp.course hsecond) hrest (ihnext item)
        | fail failure => exact .together _ _ _ _
        | error failure => exact .together _ _ _ _
  | observed _ ih =>
      rw [Parser.observed, Run.carry_eq, Run.run_emit_bind, Run.run_emit_bind]
      refine (Lockstep.bind (ih h) ?_ ?_).after _
      · intro failure sources
        exact ⟨sources, _, .returned failure, rfl⟩
      · intro value first second events _ _
        exact .together _ _ _ _

end Parser.Composed

end Backtrack
