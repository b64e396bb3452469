/-
A run can be cut between any two of its grammars and continued by a run of its own. Main statement:
engines that run in turn, each from where the one before it stopped, come to what one engine for the
sequence of their grammars comes to (`continues_sequence`): the values in pairs and the last cursor,
or the error of the first that does not succeed. None of them is asked to start at an invalid place.

A run that is continued has a new cursor, made of a position and of the engine's settings. It is the
one that the sequence goes on with because every run stops at a boundary and, if its grammar sets
nothing, under the settings that it was started with.
-/
import Backtrack.Proofs.Frame
import Backtrack.Proofs.Settling

namespace Backtrack

variable {α : Type}

/-! ## Runs in turn -/

/-- Where the next run starts: where this one stopped, or where it started if it did not succeed. -/
def Outcome.stop (start : Nat) : Outcome (α × Cursor) → Nat
  | .ok (_, c) => c.position
  | .error _ | .unfinished => start

/-- Runs of engines in turn on one text, the first from a position and each next one from where the
last success before it stopped. -/
def Engine.relay (t : Text) : Nat → List (Engine α) → List (Outcome (α × Cursor))
  | _, [] => []
  | p, e :: es => e.parseAt t p :: relay t ((e.parseAt t p).stop p) es

/-- A session that is continued again and again is a relay of one engine. -/
theorem Engine.runFrom_replicate (e : Engine α) (t : Text) : ∀ (k last : Nat),
    e.runFrom last (List.replicate k ⟨t, .resumed⟩) = Engine.relay t last (List.replicate k e)
  | 0, _ => rfl
  | k + 1, last => by
    rw [List.replicate_succ, List.replicate_succ, Engine.runFrom, Engine.relay]
    simp only [Start.position]
    rw [← Engine.runFrom_replicate e t k]
    cases e.parseAt t last <;> rfl

theorem Engine.relay_length (t : Text) : ∀ (es : List (Engine α)) (p : Nat),
    (Engine.relay t p es).length = es.length
  | [], _ => rfl
  | _ :: es, _ => congrArg (· + 1) (Engine.relay_length t es _)

/-! ## Outcomes together -/

/-- What outcomes in turn come to together: all that succeeded, or the first that did not. -/
def Outcome.together (xs : List (Outcome α)) : Outcome (List α) := xs.mapM id

theorem Outcome.together_cons (x : Outcome α) (xs : List (Outcome α)) :
    Outcome.together (x :: xs) =
      x >>= fun a => Outcome.together xs >>= fun as => .ok (a :: as) := by
  rw [Outcome.together, List.mapM_cons]
  rfl

theorem Outcome.together_eq_ok_iff : ∀ {xs : List (Outcome α)} {as : List α},
    Outcome.together xs = .ok as ↔ xs = as.map .ok
  | [], as => by cases as <;> simp [Outcome.together]
  | x :: xs, as => by
    rw [Outcome.together_cons, Outcome.bind_eq_ok_iff]
    constructor
    · rintro ⟨a, rfl, h⟩
      obtain ⟨bs, hbs, h⟩ := Outcome.bind_eq_ok_iff.1 h
      cases h
      rw [Outcome.together_eq_ok_iff.1 hbs, List.map_cons]
    · intro h
      cases as with
      | nil => cases h
      | cons a as =>
        rw [List.map_cons, List.cons.injEq] at h
        obtain ⟨rfl, h⟩ := h
        exact ⟨a, rfl, by rw [Outcome.together_eq_ok_iff.2 h]; rfl⟩

theorem Outcome.together_eq_error_iff {e : ParseError} : ∀ {xs : List (Outcome α)},
    Outcome.together xs = .error e ↔
      ∃ (as : List α) (rest : List (Outcome α)), xs = as.map .ok ++ .error e :: rest
  | [] => by simp [Outcome.together]
  | .ok a :: xs => by
    have hrest : (Outcome.together xs >>= fun as => .ok (a :: as)) = .error e ↔
        Outcome.together xs = .error e := by
      cases Outcome.together xs <;> simp
    rw [Outcome.together_cons, Outcome.ok_bind, hrest, Outcome.together_eq_error_iff]
    constructor
    · rintro ⟨as, rest, rfl⟩
      exact ⟨a :: as, rest, rfl⟩
    · rintro ⟨as, rest, h⟩
      cases as with
      | nil => cases h
      | cons b as =>
        rw [List.map_cons, List.cons_append, List.cons.injEq] at h
        exact ⟨as, rest, h.2⟩
  | .error f :: xs => by
    rw [Outcome.together_cons, Outcome.error_bind]
    constructor
    · rintro ⟨⟩
      exact ⟨[], xs, rfl⟩
    · rintro ⟨as, rest, h⟩
      cases as with
      | nil => cases h; rfl
      | cons b as => cases h
  | .unfinished :: xs => by
    rw [Outcome.together_cons, Outcome.unfinished_bind]
    constructor
    · rintro ⟨⟩
    · rintro ⟨as, rest, h⟩
      cases as <;> cases h

/-- What a sequence makes of what its parts gave: their values in pairs, and the last cursor. -/
def pairUp (first : Value × Cursor) (others : List (Value × Cursor)) : Value × Cursor :=
  others.foldl (fun x y => (.pair x.1 y.1, y.2)) first

theorem pairUp_fst (r : Value × Cursor) (rs : List (Value × Cursor)) :
    (pairUp r rs).1 = (rs.map Prod.fst).foldl .pair r.1 := by
  induction rs generalizing r with
  | nil => rfl
  | cons s rs ih => exact ih _

theorem pairUp_snd (r : Value × Cursor) (rs : List (Value × Cursor)) :
    ((r :: rs).map Prod.snd).getLast? = some (pairUp r rs).2 := by
  induction rs generalizing r with
  | nil => rfl
  | cons s rs ih =>
    rw [List.map_cons, List.map_cons, List.getLast?_cons_cons]
    exact ih (.pair r.1 s.1, s.2)

/-- Values in pairs can be told apart if they are equally many. -/
theorem foldl_pair_inj : ∀ {vs ws : List Value} {v w : Value}, vs.length = ws.length →
    vs.foldl .pair v = ws.foldl .pair w → v = w ∧ vs = ws
  | [], [], _, _, _, h => ⟨h, rfl⟩
  | _ :: _, _ :: _, _, _, hl, h => by
    obtain ⟨hp, rfl⟩ := foldl_pair_inj (Nat.succ.inj hl) h
    cases hp
    exact ⟨rfl, rfl⟩

/-- What stages come to as one run: their values in pairs and the last cursor, or the first outcome
that is no success. -/
def Outcome.paired (x : Outcome (Value × Cursor)) (ys : List (Outcome (Value × Cursor))) :
    Outcome (Value × Cursor) :=
  x >>= fun r => Outcome.together ys >>= fun rs => .ok (pairUp r rs)

section

variable {x : Outcome (Value × Cursor)} {ys : List (Outcome (Value × Cursor))}

/-- The first two stages are the first one of fewer. -/
theorem Outcome.paired_cons (x y : Outcome (Value × Cursor)) (ys : List (Outcome (Value × Cursor))) :
    Outcome.paired x (y :: ys) =
      Outcome.paired (x >>= fun r => y >>= fun s => .ok (.pair r.1 s.1, s.2)) ys := by
  rw [Outcome.paired, Outcome.paired, Outcome.together_cons]
  simp only [Outcome.ok_bind, bind_assoc]
  rfl

theorem Outcome.paired_eq_ok_iff {s : Value × Cursor} :
    Outcome.paired x ys = .ok s ↔ ∃ r rs, x :: ys = (r :: rs).map .ok ∧ pairUp r rs = s := by
  rw [Outcome.paired, Outcome.bind_eq_ok_iff]
  constructor
  · rintro ⟨r, rfl, h⟩
    obtain ⟨rs, hrs, h⟩ := Outcome.bind_eq_ok_iff.1 h
    cases h
    exact ⟨r, rs, by rw [Outcome.together_eq_ok_iff.1 hrs, List.map_cons], rfl⟩
  · rintro ⟨r, rs, hxs, rfl⟩
    rw [List.map_cons, List.cons.injEq] at hxs
    refine ⟨r, hxs.1, ?_⟩
    rw [Outcome.together_eq_ok_iff.2 hxs.2, Outcome.ok_bind]

/-- Stages that succeed together have a value each. -/
theorem Outcome.exists_values_of_paired {u : Value} {c : Cursor}
    (h : Outcome.paired x ys = .ok (u, c)) :
    ∃ (v : Value) (vs : List Value), vs.length = ys.length ∧ u = vs.foldl .pair v := by
  obtain ⟨r, rs, hxs, hend⟩ := Outcome.paired_eq_ok_iff.1 h
  rw [List.map_cons, List.cons.injEq] at hxs
  refine ⟨r.1, rs.map Prod.fst, ?_, ?_⟩
  · rw [hxs.2, List.length_map, List.length_map]
  · rw [← pairUp_fst, hend]

theorem Outcome.paired_eq_values_iff {v : Value} {vs : List Value} {c : Cursor}
    (hlen : vs.length = ys.length) : Outcome.paired x ys = .ok (vs.foldl .pair v, c) ↔
      ∃ rs : List (Value × Cursor), x :: ys = rs.map .ok ∧ rs.map Prod.fst = v :: vs ∧
        (rs.map Prod.snd).getLast? = some c := by
  rw [Outcome.paired_eq_ok_iff]
  constructor
  · rintro ⟨r, rs, hxs, hend⟩
    have hrs : rs.length = vs.length := by
      rw [List.map_cons, List.cons.injEq] at hxs
      rw [hlen, hxs.2, List.length_map]
    have hvalue : (rs.map Prod.fst).foldl .pair r.1 = vs.foldl .pair v := by
      rw [← pairUp_fst, hend]
    -- equally many values on both sides, so the pairs come apart in the same places
    obtain ⟨rfl, rfl⟩ := foldl_pair_inj (by rw [List.length_map, hrs]) hvalue
    refine ⟨r :: rs, hxs, rfl, ?_⟩
    rw [pairUp_snd, hend]
  · rintro ⟨_ | ⟨r, rs⟩, hxs, hvs, hc⟩
    · cases hvs
    · rw [List.map_cons, List.cons.injEq] at hvs
      rw [pairUp_snd, Option.some.injEq] at hc
      exact ⟨r, rs, hxs, Prod.ext (by rw [pairUp_fst, hvs.1, hvs.2]) hc⟩

theorem Outcome.paired_eq_error_iff {e : ParseError} :
    Outcome.paired x ys = .error e ↔ ∃ (rs : List (Value × Cursor))
      (rest : List (Outcome (Value × Cursor))), x :: ys = rs.map .ok ++ .error e :: rest := by
  rw [← Outcome.together_eq_error_iff, Outcome.together_cons, Outcome.paired]
  cases x with
  | ok r => cases Outcome.together ys <;> simp
  | _ => simp

end

/-! ## Where a run stops -/

/-- The error is not that of an invalid start. -/
def ParseError.FromValidStart : ParseError → Prop
  | .invalidStart .. => False
  | .failure _ | .noProgress _ | .aborted _ => True

/-- A run that sets nothing stays at the boundaries of its text and under its settings, and is never
asked to go to an invalid place. -/
def Invariant.staying (t : Text) (config : Config) : Invariant where
  cursor c := c.IsValid ∧ c.Under t config
  error := ParseError.FromValidStart
  node := Grammar.keepsConfig
  step _ := true
  advance hc hr := ⟨(hc.1.advance hr).1, hc.2.source, hc.2.config⟩
  configure h := by cases h
  jump h := by cases h
  failure _ _ _ := trivial
  noProgress _ := trivial
  aborted _ := trivial
  invalidStart h := by cases h
  failAt _ _ := trivial

section

variable {rules : Rules} {config : Config} {t : Text} {p n : Nat} {a b g : Grammar}

theorem Grammar.exists_settles_engine (rules : Rules) (config : Config) (t : Text) (p : Nat)
    (g : Grammar) :
    ∃ x, Settles (fun n => (g.engine rules config n).parseAt t p) x :=
  exists_settles fun _ _ hmn =>
    Outcome.bind_le_bind (Outcome.le_refl _) fun _ => (meaning_mono rules hmn).parser g _

/-- A relay settles with its first run and the relay that goes on from there. -/
theorem settles_relay_cons {x : Outcome (Value × Cursor)} {gs : List Grammar}
    {ys : List (Outcome (Value × Cursor))}
    (hx : Settles (fun n => (g.engine rules config n).parseAt t p) x)
    (hys : Settles (fun n => Engine.relay t (x.stop p) (gs.map (Grammar.engine rules config n))) ys) :
    Settles (fun n => Engine.relay t p ((g :: gs).map (Grammar.engine rules config n))) (x :: ys) := by
  have hcons : Settles (fun n => x ::
      Engine.relay t (x.stop p) (gs.map (Grammar.engine rules config n))) (x :: ys) := by
    obtain ⟨n, hys⟩ := hys
    exact ⟨n, fun m hm => congrArg (x :: ·) (hys m hm)⟩
  exact hx.congr (fun n hn => by rw [List.map_cons, Engine.relay, hn]) hcons

theorem exists_settles_relay (rules : Rules) (config : Config) (t : Text) : ∀ (gs : List Grammar)
    (p : Nat), ∃ ys, Settles (fun n => Engine.relay t p (gs.map (Grammar.engine rules config n))) ys
  | [], _ => ⟨[], settles_const []⟩
  | g :: gs, p => by
    obtain ⟨x, hx⟩ := g.exists_settles_engine rules config t p
    obtain ⟨ys, hys⟩ := exists_settles_relay rules config t gs (x.stop p)
    exact ⟨x :: ys, settles_relay_cons hx hys⟩

variable (hr : rules.All Grammar.keepsConfig fun _ => true)

include hr

/-- The cursor that a run gives back is the one that a new run from where it stopped is handed. -/
theorem Grammar.engine_stop (hg : g.all Grammar.keepsConfig (fun _ => true) = true)
    (hp : t.IsBoundary p) {v : Value} {d : Cursor}
    (h : (g.engine rules config n).parseAt t p = .ok (v, d)) :
    t.IsBoundary d.position ∧ d = ⟨t, d.position, config⟩ := by
  rw [Engine.parseAt_of_boundary _ hp] at h
  have hstart : (Invariant.staying t config).cursor ⟨t, p, config⟩ := ⟨hp, rfl, rfl⟩
  obtain ⟨hv, hs, hc⟩ := Invariant.next hr hg hstart h
  obtain ⟨source, position, settings⟩ := d
  obtain rfl : source = t := hs
  obtain rfl : settings = config := hc
  exact ⟨hv, rfl⟩

theorem Grammar.engine_valid (hg : g.all Grammar.keepsConfig (fun _ => true) = true)
    (hp : t.IsBoundary p) (start length : Nat) :
    (g.engine rules config n).parseAt t p ≠ .error (.invalidStart start length) := by
  rw [Engine.parseAt_of_boundary _ hp]
  intro h
  have hstart : (Invariant.staying t config).cursor ⟨t, p, config⟩ := ⟨hp, rfl, rfl⟩
  exact (Invariant.of_error hr hg hstart h).elim

theorem Grammar.engine_stop_boundary (hg : g.all Grammar.keepsConfig (fun _ => true) = true)
    (hp : t.IsBoundary p) : t.IsBoundary (((g.engine rules config n).parseAt t p).stop p) := by
  cases h : (g.engine rules config n).parseAt t p with
  | ok r => exact (Grammar.engine_stop hr hg hp h).1
  | error e => exact hp
  | unfinished => exact hp

/-- A run of two grammars in sequence is one of the first and, from where it stopped, a new one of
the second. -/
theorem Grammar.engine_and (ha : a.all Grammar.keepsConfig (fun _ => true) = true)
    (hp : t.IsBoundary p) :
    ((Grammar.and a b).engine rules config (n + 1)).parseAt t p =
      (a.engine rules config n).parseAt t p >>= fun x =>
        (b.engine rules config n).parseAt t x.2.position >>= fun y =>
          .ok (.pair x.1 y.1, y.2) := by
  have hrun : (a.engine rules config n).parseAt t p = (meaning rules n).parser a ⟨t, p, config⟩ :=
    Engine.parseAt_of_boundary _ hp
  rw [Engine.parseAt_of_boundary _ hp, hrun]
  show (((meaning rules n).parser a).and ((meaning rules n).parser b)).map Value.ofPair
    ⟨t, p, config⟩ = _
  simp only [Parser.map, Parser.and, bind_assoc]
  cases h : (meaning rules n).parser a ⟨t, p, config⟩ with
  | ok x =>
    -- the second grammar continues at a cursor that a new run would make again
    obtain ⟨hb, hx⟩ := Grammar.engine_stop hr ha hp (hrun.trans h)
    have hrest : (b.engine rules config n).parseAt t x.2.position =
        (meaning rules n).parser b x.2 :=
      (Engine.parseAt_of_boundary _ hb).trans (congrArg _ hx.symm)
    rw [Outcome.ok_bind, Outcome.ok_bind, hrest]
    rfl
  | error e => rfl
  | unfinished => rfl

/-! ## A sequence and its stages -/

theorem settles_and (ha : a.all Grammar.keepsConfig (fun _ => true) = true) (hp : t.IsBoundary p)
    {x y : Outcome (Value × Cursor)}
    (hx : Settles (fun n => (a.engine rules config n).parseAt t p) x)
    (hy : Settles (fun n => (b.engine rules config n).parseAt t (x.stop p)) y) :
    Settles (fun n => ((Grammar.and a b).engine rules config n).parseAt t p)
      (x >>= fun r => y >>= fun s => .ok (.pair r.1 s.1, s.2)) := by
  refine Settles.of_succ ?_
  simp only [Grammar.engine_and hr ha hp]
  refine hx.bind fun r hxr => ?_
  subst hxr
  exact hy.bind fun s _ => settles_const _

/-- One engine for a sequence comes to what its first grammar comes to and, where that succeeds, to
what the relay of the others comes to from there. -/
theorem settles_sequence (hp : t.IsBoundary p) : ∀ (others : List Grammar) (first : Grammar)
    {x : Outcome (Value × Cursor)} {ys : List (Outcome (Value × Cursor))},
    (∀ g ∈ first :: others, g.all Grammar.keepsConfig (fun _ => true) = true) →
    Settles (fun n => (first.engine rules config n).parseAt t p) x →
    (∀ r, x = .ok r → Settles (fun n =>
      Engine.relay t r.2.position (others.map (Grammar.engine rules config n))) ys) →
    Settles (fun n => ((Grammar.sequence first others).engine rules config n).parseAt t p)
      (Outcome.paired x ys)
  | [], first, x, ys, _, hx, hys => by
    cases x with
    | ok r =>
      obtain rfl : ys = [] := (hys r rfl).unique (settles_const [])
      exact hx
    | error e => exact hx
    | unfinished => exact hx
  | g :: gs, first, x, ys, hg, hx, hys => by
    have hfirst := hg first List.mem_cons_self
    obtain ⟨y, hy⟩ := g.exists_settles_engine rules config t (x.stop p)
    obtain ⟨zs, hzs⟩ := exists_settles_relay rules config t gs (y.stop (x.stop p))
    -- if the first stage fails, those behind it are not looked at
    have hsame : Outcome.paired x ys = Outcome.paired x (y :: zs) := by
      cases x with
      | ok r => rw [(hys r rfl).unique (settles_relay_cons hy hzs)]
      | error e => rfl
      | unfinished => rfl
    rw [hsame, Outcome.paired_cons]
    -- the first two grammars are the first one of a shorter sequence
    refine settles_sequence hp gs (.and first g) (fun k hk => ?_) (settles_and hr hfirst hp hx hy)
      fun r hr => ?_
    · rcases List.mem_cons.1 hk with rfl | hk
      · rw [Grammar.all, hfirst, hg g (List.mem_cons_of_mem _ List.mem_cons_self)]
        rfl
      · exact hg k (List.mem_cons_of_mem _ (List.mem_cons_of_mem _ hk))
    · obtain ⟨q, rfl, hq⟩ := Outcome.bind_eq_ok_iff.1 hr
      obtain ⟨s, rfl, hs⟩ := Outcome.bind_eq_ok_iff.1 hq
      cases hs
      exact hzs

end

/-- A number of stages, one run each, that agree with one run of the whole. -/
structure Continues (count : Nat) (stages : Nat → List (Outcome (Value × Cursor)))
    (whole : Nat → Outcome (Value × Cursor)) : Prop where
  /-- Each stage starts at a boundary of the text. -/
  starts : ∀ n, ∀ x ∈ stages n, ∀ start length, x ≠ .error (.invalidStart start length)
  /-- All stages succeed exactly if the whole does: with its values, and at last at its cursor. -/
  success : ∀ (v : Value) (vs : List Value) (c : Cursor), vs.length + 1 = count →
    ((∃ rs : List (Value × Cursor), Settles stages (rs.map .ok) ∧
        rs.map Prod.fst = v :: vs ∧ (rs.map Prod.snd).getLast? = some c) ↔
      Settles whole (.ok (vs.foldl .pair v, c)))
  /-- The whole has no other value than one of each stage, in pairs from the left. -/
  pairs : ∀ u c, Settles whole (.ok (u, c)) →
    ∃ (v : Value) (vs : List Value), vs.length + 1 = count ∧ u = vs.foldl .pair v
  /-- The first stage that does not succeed fails exactly as the whole does. -/
  failure : ∀ e, (∃ (rs : List (Value × Cursor)) (rest : List (Outcome (Value × Cursor))),
      Settles stages (rs.map .ok ++ .error e :: rest)) ↔ Settles whole (.error e)

section

variable {rules : Rules} {config : Config} {t : Text} {p : Nat} {first : Grammar}
  {others : List Grammar}

theorem relay_starts (hr : rules.All Grammar.keepsConfig fun _ => true) (n : Nat) :
    ∀ {gs : List Grammar} {p : Nat}, t.IsBoundary p →
      (∀ g ∈ gs, g.all Grammar.keepsConfig (fun _ => true) = true) →
      ∀ x ∈ Engine.relay t p (gs.map (Grammar.engine rules config n)), ∀ start length,
        x ≠ .error (.invalidStart start length)
  | [], _, _, _, _, hx => absurd hx List.not_mem_nil
  | g :: gs, p, hp, hg, x, hx => by
    have hfirst := hg g List.mem_cons_self
    rw [List.map_cons, Engine.relay] at hx
    rcases List.mem_cons.1 hx with rfl | hx
    · exact Grammar.engine_valid hr hfirst hp
    · exact relay_starts hr n (Grammar.engine_stop_boundary hr hfirst hp)
        (fun k hk => hg k (List.mem_cons_of_mem _ hk)) x hx

theorem continues_relay (hr : rules.All Grammar.keepsConfig fun _ => true)
    (hg : ∀ g ∈ first :: others, g.all Grammar.keepsConfig (fun _ => true) = true)
    (config : Config) (hp : t.IsBoundary p) :
    Continues (others.length + 1)
      (fun n => Engine.relay t p ((first :: others).map (Grammar.engine rules config n)))
      (fun n => ((Grammar.sequence first others).engine rules config n).parseAt t p) := by
  obtain ⟨x, hx⟩ := first.exists_settles_engine rules config t p
  obtain ⟨ys, hys⟩ := exists_settles_relay rules config t others (x.stop p)
  have hstages := settles_relay_cons hx hys
  have hwhole := settles_sequence hr hp _ _ hg hx fun r hxr => by subst hxr; exact hys
  -- each engine of a relay gives one outcome
  have hcount : ys.length = others.length := by
    obtain ⟨n, hys⟩ := hys
    rw [← hys n (Nat.le_refl n), Engine.relay_length, List.length_map]
  refine ⟨fun n => relay_starts hr n hp hg, fun v vs c hlen => ?_, fun u c h => ?_, fun e => ?_⟩
  · simp only [hstages.iff_eq, hwhole.iff_eq]
    exact (Outcome.paired_eq_values_iff (by omega)).symm
  · obtain ⟨v, vs, hvs, hu⟩ := Outcome.exists_values_of_paired (hwhole.unique h)
    exact ⟨v, vs, by rw [hvs, hcount], hu⟩
  · simp only [hstages.iff_eq, hwhole.iff_eq]
    exact Outcome.paired_eq_error_iff.symm

/-- Engines in turn, each from where the one before it stopped, come to what one engine for the
sequence of their grammars comes to, and so does a session of one engine that is continued. -/
theorem continues_sequence (hr : rules.All Grammar.keepsConfig fun _ => true)
    (hg : ∀ g ∈ first :: others, g.all Grammar.keepsConfig (fun _ => true) = true)
    (config : Config) (hp : t.IsBoundary p) :
    Continues (others.length + 1)
      (fun n => Engine.relay t p ((first :: others).map (Grammar.engine rules config n)))
      (fun n => ((Grammar.sequence first others).engine rules config n).parseAt t p) ∧
    ∀ k, Continues (k + 1)
      (fun n => (first.engine rules config n).session (List.replicate (k + 1) ⟨t, .resumed⟩))
      (fun n => ((Grammar.sequence first (List.replicate k first)).engine rules config n).parse t) := by
  refine ⟨continues_relay hr hg config hp, fun k => ?_⟩
  have hcopies : ∀ g ∈ first :: List.replicate k first,
      g.all Grammar.keepsConfig (fun _ => true) = true := by
    intro g hmem
    rw [← List.replicate_succ] at hmem
    rw [List.eq_of_mem_replicate hmem]
    exact hg first List.mem_cons_self
  have hstart : t.IsBoundary 0 := ⟨[], t, rfl, rfl⟩
  have hrelay := continues_relay hr hcopies config hstart
  -- a session that is continued is a relay of one engine with itself
  simp only [Engine.session, Engine.runFrom_replicate]
  rw [List.length_replicate, ← List.replicate_succ] at hrelay
  simp only [List.map_replicate] at hrelay
  exact hrelay

end

/-- A label, which a sign and an amount follow. -/
def label : Grammar := .nonEmpty (.takeWhile Char.isAlpha)

/-- Three runs, each of which starts where the one before it stopped, and one run of all three. -/
theorem continues_sequence_label :
    Rules.All Grammar.keepsConfig (fun _ => true) (fun _ => some .number) ∧
      (∀ g ∈ label :: [.literal " = ", .ref "amount"],
        g.all Grammar.keepsConfig (fun _ => true) = true) ∧
      Text.IsBoundary "éx = 7;".toList 2 ∧
      Settles (fun n => ((Grammar.sequence label [.literal " = ", .ref "amount"]).engine
          (fun _ => some .number) ⟨.stop, some 2⟩ n).parseAt "éx = 7;".toList 2)
        (.ok (.pair (.pair (.text "x".toList) (.text " = ".toList)) (.int 7),
          ⟨"éx = 7;".toList, 7, ⟨.stop, some 2⟩⟩)) := by
  have hr : Rules.All Grammar.keepsConfig (fun _ => true) (fun _ => some .number) := by
    intro name g h
    cases h
    rfl
  have hg : ∀ g ∈ label :: [.literal " = ", .ref "amount"],
      g.all Grammar.keepsConfig (fun _ => true) = true := by
    intro g hg
    simp only [List.mem_cons, List.not_mem_nil, or_false] at hg
    rcases hg with rfl | rfl | rfl <;> rfl
  have hp : Text.IsBoundary "éx = 7;".toList 2 := by decide
  obtain ⟨hrelay, -⟩ := continues_sequence hr hg ⟨.stop, some 2⟩ hp
  refine ⟨hr, hg, hp, (hrelay.success (.text "x".toList) [.text " = ".toList, .int 7] _ rfl).1
    ⟨[(.text "x".toList, ⟨"éx = 7;".toList, 3, ⟨.stop, some 2⟩⟩),
      (.text " = ".toList, ⟨"éx = 7;".toList, 6, ⟨.stop, some 2⟩⟩),
      (.int 7, ⟨"éx = 7;".toList, 7, ⟨.stop, some 2⟩⟩)], ⟨2, fun m hm => ?_⟩, rfl, rfl⟩⟩
  obtain ⟨k, rfl⟩ : ∃ k, m = k + 2 := ⟨m - 2, by omega⟩
  rfl

end Backtrack
