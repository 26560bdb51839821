import OssecHids.Analysisd.Fts

/-!
# The beginning that two strings have in common

`OS_StrHowClosedMatch`, and the similarity test of the FTS lists.

- `howClosedLoop_eq`: what the loop counts unless both strings are empty;
- `osStrHowClosedMatch_law`: it is the longest common prefix, and nothing behind the end of a
  string is read.
-/

open CString List

namespace StrHowClosed

/-- The loop over two arrays; `none` is a read behind the end of one of them. -/
def howClosedLoop (str1 str2 : Bytes) : ℕ → ℕ → Option ℕ
  | 0, _ => none
  | fuel + 1, count => do
    let a ← str1[count]?
    let b ← str2[count]?
    if a ≠ b then return count
    let a ← str1[count + 1]?
    if a = 0 then return count + 1
    -- `&&`: the second string is looked at when the first one goes on
    let b ← str2[count + 1]?
    if b = 0 then return count + 1
    howClosedLoop str1 str2 fuel (count + 1)

/-- `OS_StrHowClosedMatch` -/
def osStrHowClosedMatch (str1 str2 : Option Bytes) : Option ℕ :=
  match str1, str2 with
  | some str1, some str2 => howClosedLoop str1 str2 (str1.length + 1) 0
  | _, _ => some 0

/-- `CommonPrefix s t p`: `p` is the longest text that both strings begin with. -/
structure CommonPrefix (s t p : Bytes) : Prop where
  left : p <+: s
  right : p <+: t
  longest : ∀ q, q <+: s → q <+: t → q.length ≤ p.length

variable {s t p : Bytes} {a b : UInt8}

theorem CommonPrefix.of_nil (t : Bytes) : CommonPrefix [] t [] where
  left := List.nil_prefix
  right := List.nil_prefix
  longest _ hq _ := hq.length_le

theorem CommonPrefix.to_nil (s : Bytes) : CommonPrefix s [] [] where
  left := List.nil_prefix
  right := List.nil_prefix
  longest _ _ hq := hq.length_le

theorem CommonPrefix.of_ne (hab : a ≠ b) (s t : Bytes) : CommonPrefix (a :: s) (b :: t) [] where
  left := List.nil_prefix
  right := List.nil_prefix
  longest q hq hq' := by
    cases q with
    | nil => exact le_rfl
    | cons c q =>
      obtain ⟨rfl, -⟩ := cons_prefix_cons.mp hq
      exact absurd (cons_prefix_cons.mp hq').1 hab

theorem CommonPrefix.cons (h : CommonPrefix s t p) (a : UInt8) :
    CommonPrefix (a :: s) (a :: t) (a :: p) where
  left := cons_prefix_cons.mpr ⟨rfl, h.left⟩
  right := cons_prefix_cons.mpr ⟨rfl, h.right⟩
  longest q hq hq' := by
    cases q with
    | nil => exact Nat.zero_le _
    | cons c q =>
      exact Nat.succ_le_succ
        (h.longest q (cons_prefix_cons.mp hq).2 (cons_prefix_cons.mp hq').2)

theorem CommonPrefix.unique {q : Bytes} (h : CommonPrefix s t p) (h' : CommonPrefix s t q) :
    p = q := by
  have hlen : p.length = q.length :=
    le_antisymm (h'.longest p h.left h.right) (h.longest q h'.left h'.right)
  exact (prefix_of_prefix_length_le h.left h'.left hlen.le).eq_of_length hlen

/-! ## The loop -/

/-- The loop stands behind `l`, which both strings begin with. -/
theorem howClosedLoop_eq (hs : 0 ∉ s) (ht : 0 ∉ t) (hne : s ≠ [] ∨ t ≠ []) {fuel : ℕ}
    (hfuel : s.length < fuel) (l : Bytes) :
    ∃ p, CommonPrefix s t p ∧
      howClosedLoop (l ++ (s ++ [0])) (l ++ (t ++ [0])) fuel l.length =
        some (l.length + p.length) := by
  induction fuel generalizing l s t with
  | zero => omega
  | succ fuel ih =>
    have hhead : ∀ u : Bytes, (l ++ u)[l.length]? = u.head? := fun u => by
      rw [getElem?_append_right le_rfl, Nat.sub_self, head?_eq_getElem?]
    have hnext : ∀ u : Bytes, (l ++ u)[l.length + 1]? = u.tail.head? := fun u => by
      rw [getElem?_append_right (Nat.le_add_right _ 1), Nat.add_sub_cancel_left,
        head?_eq_getElem?, getElem?_tail]
    rw [howClosedLoop, hhead, hhead, hnext, hnext]
    cases s with
    | nil =>
      obtain ⟨b, t, rfl⟩ := exists_cons_of_ne_nil (hne.resolve_left (not_not_intro rfl))
      have hb : 0 ≠ b := fun h => ht (h ▸ mem_cons_self)
      exact ⟨[], .of_nil _, by simp [hb]⟩
    | cons a s =>
      have ha : a ≠ 0 := fun h => hs (h ▸ mem_cons_self)
      cases t with
      | nil => exact ⟨[], .to_nil _, by simp [ha]⟩
      | cons b t =>
        by_cases hab : a = b
        case neg => exact ⟨[], .of_ne hab _ _, by simp [hab]⟩
        case pos =>
          subst hab
          have hs' : 0 ∉ s := fun h => hs (mem_cons_of_mem _ h)
          have ht' : 0 ∉ t := fun h => ht (mem_cons_of_mem _ h)
          cases s with
          | nil => exact ⟨[a], (CommonPrefix.of_nil t).cons a, by simp⟩
          | cons c s =>
            have hc : c ≠ 0 := fun h => hs' (h ▸ mem_cons_self)
            cases t with
            | nil => exact ⟨[a], (CommonPrefix.to_nil _).cons a, by simp⟩
            | cons d t =>
              have hd : d ≠ 0 := fun h => ht' (h ▸ mem_cons_self)
              obtain ⟨p, hp, hloop⟩ := ih hs' ht' (.inl (cons_ne_nil c s))
                (Nat.lt_of_succ_lt_succ hfuel) (l ++ [a])
              refine ⟨a :: p, hp.cons a, ?_⟩
              rw [length_append, length_singleton] at hloop
              have hgo : ∀ u : Bytes, l ++ (a :: u) = l ++ [a] ++ u := fun u => by simp
              simp only [cons_append, head?_cons, tail_cons, Option.bind_eq_bind,
                Option.bind_some, ne_eq, not_true_eq_false, if_false, hc, hd]
              rw [hgo, hgo]
              simpa [add_comm, add_left_comm] using hloop

/-- Two empty strings: the first characters are the same, and the next ones are read. -/
theorem osStrHowClosedMatch_nil : osStrHowClosedMatch (some [0]) (some [0]) = none := rfl

theorem osStrHowClosedMatch_eq (hs : 0 ∉ s) (ht : 0 ∉ t) (hne : s ≠ [] ∨ t ≠ []) :
    ∃ p, CommonPrefix s t p ∧
      osStrHowClosedMatch (some (s ++ [0])) (some (t ++ [0])) = some p.length := by
  have hfuel : s.length < (s ++ [0]).length + 1 := by
    rw [length_append]
    omega
  obtain ⟨p, hp, hloop⟩ := howClosedLoop_eq hs ht hne hfuel []
  refine ⟨p, hp, ?_⟩
  rw [length_nil, zero_add] at hloop
  exact hloop

/-! ## The similarity test of `FTS` -/

theorem strHowClosedMatch_eq (hs : 0 ∉ s) (ht : 0 ∉ t) (hne : t ≠ []) (hp : CommonPrefix s t p) :
    Fts.strHowClosedMatch s t = p.length := by
  induction s generalizing t p with
  | nil =>
    obtain ⟨b, t, rfl⟩ := exists_cons_of_ne_nil hne
    obtain rfl := hp.unique (.of_nil _)
    rfl
  | cons a s ih =>
    obtain ⟨b, t, rfl⟩ := exists_cons_of_ne_nil hne
    rw [mem_cons, not_or] at hs ht
    rw [Fts.strHowClosedMatch]
    by_cases hab : a = b
    case neg =>
      obtain rfl := hp.unique (.of_ne hab s t)
      exact if_neg hab
    case pos =>
      subst hab
      rw [if_pos rfl]
      by_cases hgo : s.headD 0 ≠ 0 ∧ t.headD 0 ≠ 0
      case pos =>
        have htne : t ≠ [] := by
          rintro rfl
          exact hgo.2 rfl
        -- what both begin with goes on behind the letter
        obtain ⟨q, hq, -⟩ := osStrHowClosedMatch_eq hs.2 ht.2 (.inr htne)
        obtain rfl := hp.unique (hq.cons a)
        rw [if_pos hgo, ih hs.2 ht.2 htne hq, length_cons]
      case neg =>
        have hzero : ∀ u : Bytes, 0 ∉ u → u.headD 0 = 0 → u = [] := fun u hu hhead => by
          cases u with
          | nil => rfl
          | cons c u => exact absurd (hhead ▸ mem_cons_self) hu
        rw [if_neg hgo]
        rw [not_and_or, not_not, not_not] at hgo
        rcases hgo with hend | hend
        · obtain rfl := hzero s hs.2 hend
          rw [hp.unique ((CommonPrefix.of_nil t).cons a)]
          rfl
        · obtain rfl := hzero t ht.2 hend
          rw [hp.unique ((CommonPrefix.to_nil s).cons a)]
          rfl

theorem ftsLine_ne_nil (lf : Fts.Eventinfo) : Fts.ftsLine lf ≠ [] := by
  rw [Fts.ftsLine, snprintf, Fts.spaced, intercalate_cons_cons, append_assoc, singleton_append]
  apply ne_nil_of_length_pos
  rw [length_take, length_append, length_cons]
  have hsize : 0 < Fts.OS_FLSIZE - 1 := by decide
  omega

/-- **When the length is that of the longest common prefix**, and nothing behind the ends is read:
unless both strings are empty. The lines of the similarity test of `FTS` are not. -/
theorem osStrHowClosedMatch_law (s t : Bytes) (hs : 0 ∉ s) (ht : 0 ∉ t) :
    ((∃ p, CommonPrefix s t p ∧
        osStrHowClosedMatch (some (s ++ [0])) (some (t ++ [0])) = some p.length) ↔
      ¬(s = [] ∧ t = [])) ∧
    ∀ lf, t = Fts.ftsLine lf → ∃ p, CommonPrefix s t p ∧
      osStrHowClosedMatch (some (s ++ [0])) (some (t ++ [0])) = some p.length ∧
      Fts.strHowClosedMatch s t = p.length := by
  refine ⟨⟨?_, fun hne => ?_⟩, ?_⟩
  · rintro ⟨p, -, hmatch⟩ ⟨rfl, rfl⟩
    rw [nil_append, osStrHowClosedMatch_nil] at hmatch
    cases hmatch
  · exact osStrHowClosedMatch_eq hs ht (not_and_or.mp hne)
  · rintro lf rfl
    have hne := ftsLine_ne_nil lf
    obtain ⟨p, hp, hmatch⟩ := osStrHowClosedMatch_eq hs ht (Or.inr hne)
    exact ⟨p, hp, hmatch, strHowClosedMatch_eq hs ht hne hp⟩

/-- A string that the other one begins with. -/
theorem osStrHowClosedMatch_law_test :
    ∃ p, CommonPrefix (lit "test") (lit "test1234") p ∧
      osStrHowClosedMatch (some (lit "test" ++ [0])) (some (lit "test1234" ++ [0])) =
        some p.length :=
  (osStrHowClosedMatch_law (lit "test") (lit "test1234") (by decide) (by decide)).1.mpr (by decide)

/-- Two empty strings have nothing in common, and the loop goes on behind their ends. -/
theorem not_osStrHowClosedMatch :
    CommonPrefix [] [] [] ∧
      ¬∃ p, CommonPrefix [] [] p ∧
        osStrHowClosedMatch (some ([] ++ [0])) (some ([] ++ [0])) = some p.length := by
  refine ⟨.of_nil [], ?_⟩
  rintro ⟨p, -, hmatch⟩
  cases hmatch

end StrHowClosed
