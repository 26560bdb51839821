import Mathlib.Order.Lattice

/-!
# Nested scanners

A scanner reads symbols in rounds. It keeps a local state for the level that it is on, and an output
that all levels share; a round can end the level, or begin a new level that returns to it.

- `Scanner.loop`: the run of a scanner, with fuel;
- `Scanner.Accepts`: the runs that end well, by what their rounds do;
- `Scanner.run_eq_ok_iff`: a scanner whose rounds get on runs as `Accepts` says.
-/

/-- What a round comes to: it fails, it ends the level with a result, it goes on, or it begins a
level. With the last three come the rest of the input and the output. -/
inductive Round (α σ ω ε ρ : Type)
  | fail (e : ε)
  | close (r : ρ) (rest : List α) (out : ω)
  | next (st : σ) (rest : List α) (out : ω)
  | child (rest : List α) (out : ω)

structure Scanner (α σ ω ε ρ : Type) where
  /-- A round on a level, after a symbol was read. -/
  round : ℕ → σ → α → List α → ω → Round α σ ω ε ρ
  /-- What a level comes to at the end of the input. -/
  finish : ℕ → σ → Except ε ρ
  /-- The first state on a new level. -/
  enter : ℕ → σ → Except ε σ
  /-- The state after a level has returned. -/
  leave : σ → ρ → Except ε σ

namespace Scanner

variable {α σ ω ε ρ : Type}

/-- The run of a level; `none` is the end of the fuel. -/
def loop (S : Scanner α σ ω ε ρ) :
    ℕ → ℕ → σ → List α → ω → Option (Except ε (ρ × List α × ω))
  | 0, _, _, _, _ => none
  | _ + 1, d, st, [], out => some ((S.finish d st).map fun r => (r, [], out))
  | fuel + 1, d, st, c :: rest, out =>
    match S.round d st c rest out with
    | .fail e => some (.error e)
    | .close r rest out => some (.ok (r, rest, out))
    | .next st rest out => S.loop fuel d st rest out
    | .child rest out =>
      match S.enter d st with
      | .error e => some (.error e)
      | .ok st₁ =>
        match S.loop fuel (d + 1) st₁ rest out with
        | none => none
        | some (.error e) => some (.error e)
        | some (.ok (r, rest, out)) =>
          match S.leave st r with
          | .error e => some (.error e)
          | .ok st₂ => S.loop fuel d st₂ rest out

/-- The run of the first level, with as much fuel as a scanner needs whose rounds get on. -/
def run (S : Scanner α σ ω ε ρ) (st : σ) (input : List α) (out : ω) :
    Option (Except ε (ρ × List α × ω)) :=
  S.loop (2 * input.length + 2) 0 st input out

/-- The runs that end well. -/
inductive Accepts (S : Scanner α σ ω ε ρ) :
    ℕ → σ → List α → ω → ρ → List α → ω → Prop
  | done {d st out r} (hfinish : S.finish d st = .ok r) : Accepts S d st [] out r [] out
  | close {d st c rest out r rest' out'} (hround : S.round d st c rest out = .close r rest' out') :
      Accepts S d st (c :: rest) out r rest' out'
  | next {d st c rest out st' rest₁ out₁ r rest' out'}
      (hround : S.round d st c rest out = .next st' rest₁ out₁)
      (hrest : Accepts S d st' rest₁ out₁ r rest' out') :
      Accepts S d st (c :: rest) out r rest' out'
  | child {d st c rest out rest₁ out₁ st₁ r₁ rest₂ out₂ st₂ r rest' out'}
      (hround : S.round d st c rest out = .child rest₁ out₁) (henter : S.enter d st = .ok st₁)
      (hchild : Accepts S (d + 1) st₁ rest₁ out₁ r₁ rest₂ out₂) (hleave : S.leave st r₁ = .ok st₂)
      (hrest : Accepts S d st₂ rest₂ out₂ r rest' out') :
      Accepts S d st (c :: rest) out r rest' out'

/-! ## Runs with fuel -/

variable {S : Scanner α σ ω ε ρ} {d fuel fuel' : ℕ} {st st' st₁ st₂ : σ} {c : α}
  {input rest rest' : List α} {out out' : ω} {r : ρ}

theorem loop_mono {x : Except ε (ρ × List α × ω)} (h : S.loop fuel d st input out = some x)
    (hle : fuel ≤ fuel') : S.loop fuel' d st input out = some x := by
  induction fuel generalizing d st input out x fuel' with
  | zero => cases h
  | succ fuel ih =>
    obtain ⟨fuel', rfl⟩ := Nat.exists_eq_add_one.mpr (lt_of_lt_of_le (Nat.succ_pos _) hle)
    have hle' := Nat.le_of_succ_le_succ hle
    cases input with
    | nil => exact h
    | cons c rest =>
      rw [loop] at h ⊢
      cases hround : S.round d st c rest out with
      | fail e => rwa [hround] at h
      | close r rest' out' => rwa [hround] at h
      | next st' rest' out' =>
        rw [hround] at h
        exact ih h hle'
      | child rest₁ out₁ =>
        rw [hround] at h
        cases henter : S.enter d st with
        | error e => rwa [henter] at h
        | ok st₁ =>
          rw [henter] at h
          dsimp only at h ⊢
          cases hloop : S.loop fuel (d + 1) st₁ rest₁ out₁ with
          | none =>
            rw [hloop] at h
            cases h
          | some y =>
            rw [hloop] at h
            rw [ih hloop hle']
            rcases y with e | ⟨r₁, rest₂, out₂⟩
            · exact h
            · dsimp only at h ⊢
              cases hleave : S.leave st r₁ with
              | error e => rwa [hleave] at h
              | ok st₂ =>
                rw [hleave] at h
                exact ih h hle'

theorem accepts_of_loop (h : S.loop fuel d st input out = some (.ok (r, rest, out'))) :
    S.Accepts d st input out r rest out' := by
  induction fuel generalizing d st input out r rest out' with
  | zero => cases h
  | succ fuel ih =>
    cases input with
    | nil =>
      rw [loop] at h
      cases hfinish : S.finish d st with
      | error e =>
        rw [hfinish] at h
        cases h
      | ok r' =>
        rw [hfinish] at h
        cases h
        exact .done hfinish
    | cons c input =>
      rw [loop] at h
      cases hround : S.round d st c input out with
      | fail e =>
        rw [hround] at h
        cases h
      | close r' rest' out'' =>
        rw [hround] at h
        cases h
        exact .close hround
      | next st' rest' out'' =>
        rw [hround] at h
        exact .next hround (ih h)
      | child rest₁ out₁ =>
        rw [hround] at h
        cases henter : S.enter d st with
        | error e =>
          rw [henter] at h
          cases h
        | ok st₁ =>
          rw [henter] at h
          dsimp only at h
          cases hloop : S.loop fuel (d + 1) st₁ rest₁ out₁ with
          | none =>
            rw [hloop] at h
            cases h
          | some y =>
            rw [hloop] at h
            rcases y with e | ⟨r₁, rest₂, out₂⟩
            · cases h
            · dsimp only at h
              cases hleave : S.leave st r₁ with
              | error e =>
                rw [hleave] at h
                cases h
              | ok st₂ =>
                rw [hleave] at h
                exact .child hround henter (ih hloop) hleave (ih h)

theorem exists_loop_of_accepts (h : S.Accepts d st input out r rest out') :
    ∃ fuel, S.loop fuel d st input out = some (.ok (r, rest, out')) := by
  induction h with
  | done hfinish =>
    refine ⟨1, ?_⟩
    rw [loop, hfinish]
    rfl
  | close hround =>
    refine ⟨1, ?_⟩
    rw [loop, hround]
  | next hround _ ih =>
    obtain ⟨fuel, hfuel⟩ := ih
    refine ⟨fuel + 1, ?_⟩
    rw [loop, hround]
    exact hfuel
  | child hround henter _ hleave _ ih₁ ih₂ =>
    obtain ⟨fuel₁, hfuel₁⟩ := ih₁
    obtain ⟨fuel₂, hfuel₂⟩ := ih₂
    refine ⟨max fuel₁ fuel₂ + 1, ?_⟩
    rw [loop, hround]
    rw [henter]
    dsimp only
    rw [loop_mono hfuel₁ (le_max_left _ _)]
    dsimp only
    rw [hleave]
    exact loop_mono hfuel₂ (le_max_right _ _)

/-! ## Enough fuel -/

/-- The rounds of a scanner get on: a round that goes on reads its symbol, and a round that begins a
level may give its symbol back, but the new level reads it. `w` tells the states in which a level
can begin. -/
structure Progress (S : Scanner α σ ω ε ρ) (w : σ → Bool) : Prop where
  close : ∀ {d st c rest out r rest' out'}, S.round d st c rest out = .close r rest' out' →
    rest'.length ≤ rest.length
  next : ∀ {d st c rest out st' rest' out'}, S.round d st c rest out = .next st' rest' out' →
    rest'.length ≤ rest.length
  child : ∀ {d st c rest out rest' out'}, S.round d st c rest out = .child rest' out' →
    w st = true ∧ rest'.length ≤ rest.length + 1
  enter : ∀ {d st st'}, S.enter d st = .ok st' → w st' = false

/-- A run that ends well has read something, if there was something to read. -/
theorem Accepts.length_le {w : σ → Bool} (hS : S.Progress w)
    (h : S.Accepts d st input out r rest out') : rest.length ≤ input.length - 1 := by
  induction h with
  | done hfinish => exact Nat.zero_le _
  | close hround => exact hS.close hround
  | next hround _ ih =>
    have := hS.next hround
    rw [List.length_cons]
    omega
  | child hround henter _ hleave _ ih₁ ih₂ =>
    have := (hS.child hround).2
    rw [List.length_cons]
    omega

theorem exists_loop {w : σ → Bool} (hS : S.Progress w)
    (hfuel : 2 * input.length + (w st).toNat < fuel) :
    ∃ x, S.loop fuel d st input out = some x := by
  induction fuel generalizing d st input out with
  | zero => cases hfuel
  | succ fuel ih =>
    have hw : ∀ st, (w st).toNat ≤ 1 := fun st => Bool.toNat_le (w st)
    cases input with
    | nil => exact ⟨_, rfl⟩
    | cons c input =>
      rw [List.length_cons] at hfuel
      rw [loop]
      cases hround : S.round d st c input out with
      | fail e => exact ⟨_, rfl⟩
      | close r' rest' out' => exact ⟨_, rfl⟩
      | next st' rest' out' =>
        have hlen := hS.next hround
        have := hw st'
        exact ih (by omega)
      | child rest₁ out₁ =>
        obtain ⟨hst, hlen⟩ := hS.child hround
        rw [hst, Bool.toNat_true] at hfuel
        cases henter : S.enter d st with
        | error e => exact ⟨_, rfl⟩
        | ok st₁ =>
          have hst₁ := hS.enter henter
          obtain ⟨y, hy⟩ : ∃ y, S.loop fuel (d + 1) st₁ rest₁ out₁ = some y :=
            ih (by rw [hst₁, Bool.toNat_false]; omega)
          dsimp only
          rw [hy]
          rcases y with e | ⟨r₁, rest₂, out₂⟩
          · exact ⟨_, rfl⟩
          · have hrest := (accepts_of_loop hy).length_le hS
            dsimp only
            cases hleave : S.leave st r₁ with
            | error e => exact ⟨_, rfl⟩
            | ok st₂ =>
              have := hw st₂
              exact ih (by omega)

theorem isSome_run {w : σ → Bool} (hS : S.Progress w) : (S.run st input out).isSome := by
  have hw := Bool.toNat_le (w st)
  obtain ⟨x, hx⟩ : ∃ x, S.loop (2 * input.length + 2) 0 st input out = some x :=
    exists_loop hS (by omega)
  rw [run, hx]
  rfl

theorem run_eq_ok_iff {w : σ → Bool} (hS : S.Progress w) :
    S.run st input out = some (.ok (r, rest, out')) ↔ S.Accepts 0 st input out r rest out' := by
  constructor
  · exact accepts_of_loop
  · intro h
    obtain ⟨fuel, hfuel⟩ := exists_loop_of_accepts h
    obtain ⟨x, hx⟩ : ∃ x, S.run st input out = some x := Option.isSome_iff_exists.mp (isSome_run hS)
    have hx' : S.loop (max fuel (2 * input.length + 2)) 0 st input out = some x :=
      loop_mono hx (le_max_right _ _)
    rw [loop_mono hfuel (le_max_left _ _)] at hx'
    rw [hx, ← Option.some.inj hx']

end Scanner
