import Mathlib.Data.List.Perm.Basic
import OssecHids.Shared.Sacmp

/-!
# Address lists

`OS_IPFound` and `OS_IPFoundList`: whether an address is in a configured network, and whether a list
of networks lets it in.

- `osIPFound_eq_true_iff`: one entry answers by the law of lists;
- `osIPFoundList_of_valid`: the first entry that contains the address decides, and if there is
  none the last one;
- `listLaw_iff`: when the answer is that of the law.
-/

open CString Execd List

namespace ValidateOp

/-! ## The code -/

/-- The entry is negated. -/
def OsIp.negated (e : OsIp) : Bool := e.ip.headD 0 == chr '!'

/-- The entry is `any`, behind the optional `!`. -/
def OsIp.isAny (e : OsIp) : Bool := unnegated e.ip == lit "any"

/-- `OS_IPFound` -/
def osIPFound (inet : Inet) (ip_address : Bytes) (that_ip : OsIp) : Bool :=
  let _true := !that_ip.negated
  if that_ip.isAny then _true
  else
    match osIsValidIP inet ip_address with
    | none => !_true
    | some (_, temp_ip) =>
      if sacmp temp_ip.ss that_ip.ss that_ip.prefixlength then _true else !_true

/-- The loop of `OS_IPFoundList`, with the value of `_true` so far. -/
def foundListLoop (ss : Sockaddr) : Bool → List OsIp → Bool
  | _true, [] => !_true
  | _, l_ip :: list_of_ips =>
    let _true := !l_ip.negated
    if l_ip.isAny then _true
    else if sacmp ss l_ip.ss l_ip.prefixlength then _true
    else foundListLoop ss _true list_of_ips

/-- `OS_IPFoundList` -/
def osIPFoundList (inet : Inet) (ip_address : Bytes) (list_of_ips : List OsIp) : Bool :=
  match osIsValidIP inet ip_address with
  | none => false
  | some (_, temp_ip) => foundListLoop temp_ip.ss true list_of_ips

/-! ## The law -/

/-- The entry contains the address: an address that is not valid is in `any` only. -/
def OsIp.contains (inet : Inet) (ip_address : Bytes) (e : OsIp) : Bool :=
  e.isAny ||
    match osIsValidIP inet ip_address with
    | none => false
    | some (_, temp_ip) => sacmp temp_ip.ss e.ss e.prefixlength

/-- The list lets the address in: no negated entry contains it, and one of the others does or there
are none but negated ones. -/
def Admits (inet : Inet) (ip_address : Bytes) (l : List OsIp) : Prop :=
  (∀ e ∈ l, e.negated = true → e.contains inet ip_address = false) ∧
  ((∃ e ∈ l, e.negated = false ∧ e.contains inet ip_address = true) ∨
    l ≠ [] ∧ ∀ e ∈ l, e.negated = true)

/-- The list answers by the law, and as its entry does when there is only one. -/
def ListLaw (inet : Inet) (ip_address : Bytes) (l : List OsIp) : Prop :=
  (osIPFoundList inet ip_address l = true ↔ Admits inet ip_address l) ∧
  ∀ e, l = [e] → osIPFoundList inet ip_address l = osIPFound inet ip_address e

/-- No entry decides in the place of another. Of a valid address, when the first entry that contains
it is not negated, no negated entry does; and when none contains it and the last entry is negated,
all are. For an address that is not valid `!any` is there, or an entry that is not negated but no
`any`, or nothing. -/
def Decided (inet : Inet) (ip_address : Bytes) (l : List OsIp) : Prop :=
  if (osIsValidIP inet ip_address).isSome then
    match l.find? fun e => e.contains inet ip_address with
    | some first => first.negated = false →
      ∀ e ∈ l, e.negated = true → e.contains inet ip_address = false
    | none => (∃ last, l.getLast? = some last ∧ last.negated = true) → ∀ e ∈ l, e.negated = true
  else
    (∃ e ∈ l, e.negated = true ∧ e.isAny = true) ∨
    ((∃ e ∈ l, e.negated = false) ∧ ∀ e ∈ l, e.isAny = false) ∨ l = []

section Law

variable {inet : Inet} {ip_address : Bytes} {l l' : List OsIp} {e : OsIp} {ret : ℕ} {temp_ip : OsIp}

/-- One entry answers by the law of lists, whether the address is valid or not. -/
theorem osIPFound_eq_true_iff :
    osIPFound inet ip_address e = true ↔ Admits inet ip_address [e] := by
  have hcode : osIPFound inet ip_address e =
      if e.contains inet ip_address then !e.negated else e.negated := by
    rw [osIPFound, OsIp.contains]
    cases e.isAny with
    | true => rfl
    | false =>
      cases osIsValidIP inet ip_address with
      | none => exact Bool.not_not _
      | some parts =>
        rw [Bool.false_or, Bool.not_not]
        rfl
  rw [hcode, Admits]
  cases hnegated : e.negated <;> cases hcontains : e.contains inet ip_address <;>
    simp [hnegated, hcontains]

/-- The first entry that contains the address decides; without one the last entry does. -/
theorem foundListLoop_eq (hvalid : osIsValidIP inet ip_address = some (ret, temp_ip)) (b : Bool) :
    foundListLoop temp_ip.ss b l =
      match l.find? fun e => e.contains inet ip_address with
      | some first => !first.negated
      | none => match l.getLast? with
        | some last => last.negated
        | none => !b := by
  induction l generalizing b with
  | nil => rfl
  | cons e l ih =>
    have hcontains : e.contains inet ip_address =
        (e.isAny || sacmp temp_ip.ss e.ss e.prefixlength) := by
      rw [OsIp.contains, hvalid]
    rw [foundListLoop, find?_cons, hcontains]
    cases e.isAny with
    | true => rfl
    | false =>
      cases hsacmp : sacmp temp_ip.ss e.ss e.prefixlength with
      | true => rfl
      | false =>
        refine (ih (!e.negated)).trans ?_
        cases hfind : l.find? fun e => e.contains inet ip_address with
        | some first => rfl
        | none =>
          cases l with
          | nil => exact Bool.not_not _
          | cons e' l =>
            rw [getLast?_cons_cons]
            rfl

theorem admits_iff_decided_of_valid (hvalid : osIsValidIP inet ip_address = some (ret, temp_ip)) :
    (osIPFoundList inet ip_address l = true ↔ Admits inet ip_address l) ↔
      Decided inet ip_address l := by
  have hcode : osIPFoundList inet ip_address l = foundListLoop temp_ip.ss true l := by
    rw [osIPFoundList, hvalid]
  rw [hcode, foundListLoop_eq hvalid, Decided, if_pos (by rw [hvalid]; rfl)]
  cases hfind : l.find? fun e => e.contains inet ip_address with
  | some first =>
    have hcontains : first.contains inet ip_address = true := find?_some hfind
    have hmem := mem_of_find?_eq_some hfind
    dsimp only
    cases hnegated : first.negated with
    | true =>
      have hnot : ¬ Admits inet ip_address l := fun h =>
        Bool.false_ne_true ((h.1 first hmem hnegated).symm.trans hcontains)
      exact iff_of_true (iff_of_false Bool.false_ne_true hnot) nofun
    | false =>
      constructor
      · exact fun h _ => (h.mp rfl).1
      · exact fun h => ⟨fun _ => ⟨h rfl, .inl ⟨first, hmem, hnegated, hcontains⟩⟩, fun _ => rfl⟩
  | none =>
    have hnone : ∀ e ∈ l, e.contains inet ip_address = false := fun e he =>
      Bool.eq_false_iff.mpr (find?_eq_none.mp hfind e he)
    have hadmits : Admits inet ip_address l ↔ l ≠ [] ∧ ∀ e ∈ l, e.negated = true := by
      constructor
      · rintro ⟨-, ⟨e, he, -, hcontains⟩ | hall⟩
        · exact absurd ((hnone e he).symm.trans hcontains) Bool.false_ne_true
        · exact hall
      · exact fun hall => ⟨fun e he _ => hnone e he, .inr hall⟩
    rw [hadmits]
    cases hlast : l.getLast? with
    | none =>
      obtain rfl := getLast?_eq_none_iff.mp hlast
      exact iff_of_true (iff_of_false Bool.false_ne_true fun h => h.1 rfl) nofun
    | some last =>
      have hne : l ≠ [] := by
        rintro rfl
        exact nomatch hlast
      constructor
      · rintro h ⟨_, heq, hnegated⟩
        cases heq
        exact (h.mp hnegated).2
      · refine fun h => ⟨fun hnegated => ⟨hne, h ⟨last, rfl, hnegated⟩⟩, fun hall => ?_⟩
        exact hall.2 last (mem_of_getLast? hlast)

/-- The empty answer to an address that is not valid. -/
theorem admits_iff_decided_of_invalid (hvalid : osIsValidIP inet ip_address = none) :
    (osIPFoundList inet ip_address l = true ↔ Admits inet ip_address l) ↔
      Decided inet ip_address l := by
  have hcode : osIPFoundList inet ip_address l = false := by rw [osIPFoundList, hvalid]
  have hcontains : ∀ e : OsIp, e.contains inet ip_address = e.isAny := fun e => by
    rw [OsIp.contains, hvalid, Bool.or_false]
  have hanswer : (osIPFoundList inet ip_address l = true ↔ Admits inet ip_address l) ↔
      ¬ Admits inet ip_address l := by
    rw [hcode]
    exact ⟨fun h hadmits => Bool.false_ne_true (h.mpr hadmits),
      fun h => ⟨nofun, fun hadmits => absurd hadmits h⟩⟩
  rw [hanswer, Decided, if_neg (by rw [hvalid]; nofun), Admits]
  simp only [hcontains]
  constructor
  · intro h
    by_cases hany : ∃ e ∈ l, e.negated = true ∧ e.isAny = true
    · exact .inl hany
    · -- no `!any`, so that the second half of the law fails
      have hfirst : ∀ e ∈ l, e.negated = true → e.isAny = false := fun e he hn =>
        Bool.eq_false_iff.mpr fun ha => hany ⟨e, he, hn, ha⟩
      have hsecond := fun hs => h ⟨hfirst, hs⟩
      by_cases hnil : l = []
      · exact .inr (.inr hnil)
      · refine .inr (.inl ⟨?_, fun e he => ?_⟩)
        · by_contra hall
          refine hsecond (.inr ⟨hnil, fun e he => ?_⟩)
          rw [← Bool.not_eq_false]
          exact fun hn => hall ⟨e, he, hn⟩
        · cases hn : e.negated with
          | true => exact hfirst e he hn
          | false => exact Bool.eq_false_iff.mpr fun ha => hsecond (.inl ⟨e, he, hn, ha⟩)
  · rintro (⟨e, he, hn, ha⟩ | ⟨⟨e, he, hn⟩, hany⟩ | rfl) ⟨hfirst, hsecond⟩
    · exact Bool.false_ne_true ((hfirst e he hn).symm.trans ha)
    · rcases hsecond with ⟨e', he', -, ha⟩ | ⟨-, hall⟩
      · exact Bool.false_ne_true ((hany e' he').symm.trans ha)
      · exact Bool.false_ne_true (hn.symm.trans (hall e he))
    · rcases hsecond with ⟨_, he, -⟩ | ⟨hne, -⟩
      · cases he
      · exact hne rfl

end Law

/-- For every list and every address, the answer is that of the law, and for one entry that of
`OS_IPFound`, if and only if no entry decides in the place of another. -/
theorem listLaw_iff_decided (inet : Inet) (ip_address : Bytes) (l : List OsIp) :
    ListLaw inet ip_address l ↔ Decided inet ip_address l := by
  have hdecided : (osIPFoundList inet ip_address l = true ↔ Admits inet ip_address l) ↔
      Decided inet ip_address l := by
    cases hvalid : osIsValidIP inet ip_address with
    | none => exact admits_iff_decided_of_invalid hvalid
    | some parts => exact @admits_iff_decided_of_valid inet ip_address l parts.1 parts.2 hvalid
  rw [ListLaw, hdecided]
  refine and_iff_left_of_imp fun h e he => ?_
  have hlaw := hdecided.mpr h
  rw [he] at hlaw ⊢
  rw [Bool.eq_iff_iff, hlaw, osIPFound_eq_true_iff]

/-- The network of `10.0.0.1` alone, and the network of all but it. -/
def only (in_address : Bytes) : OsIp := ⟨in_address, .inet 0x0a000001, 32, Nat.le_refl _⟩

/-- The first of two entries decides, so that the order matters. -/
theorem not_listLaw :
    osIPFoundList inetTen (lit "10.0.0.1") [only (lit "10.0.0.1"), only (lit "!10.0.0.1")] = true ∧
    osIPFoundList inetTen (lit "10.0.0.1") [only (lit "!10.0.0.1"), only (lit "10.0.0.1")] = false ∧
    ¬ ListLaw inetTen (lit "10.0.0.1") [only (lit "10.0.0.1"), only (lit "!10.0.0.1")] := by
  have hfound : osIPFoundList inetTen (lit "10.0.0.1")
      [only (lit "10.0.0.1"), only (lit "!10.0.0.1")] = true := by decide
  refine ⟨hfound, by decide, fun h => ?_⟩
  have hout := (h.1.mp hfound).1 (only (lit "!10.0.0.1"))
    (mem_cons_of_mem _ mem_cons_self) (by decide)
  exact absurd hout (by decide)

end ValidateOp
