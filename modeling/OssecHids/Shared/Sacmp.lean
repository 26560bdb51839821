import OssecHids.Lib.BitPrefix
import OssecHids.Shared.ValidateIP

/-!
# Comparing addresses

`sacmp` compares an address with a network byte by byte, from the place in the `sockaddr_storage`
where its IPv4 part begins when it is one that is mapped into the other family.

- `sacmp_of_narrow`, `sacmp_of_wide`: what is compared;
- `sacmp_iff_sameNetwork`: when that is the prefix of the network.
-/

open CString Execd BitPrefix

namespace ValidateOp

/-! ## The code -/

/-- `IN6_IS_ADDR_V4MAPPED` -/
def in6IsAddrV4mapped (sin6_addr : BitVec 128) : Bool := sin6_addr >>> 32 == 0xffff

/-- Whether the address is compared as an IPv4 one, and the bytes of the `sockaddr_storage` from
the place where the comparison begins: zero bytes behind the address. -/
def realAddress : Sockaddr → Bool × Bytes
  | .inet sin_addr => (true, bytes 4 sin_addr ++ List.replicate 120 0)
  | .inet6 sin6_addr =>
    let addr := bytes 16 sin6_addr ++ List.replicate 104 0
    -- shift the pointer for a mapped address
    if in6IsAddrV4mapped sin6_addr then (true, addr.drop (16 - 4)) else (false, addr)

/-- `sacmp` -/
def sacmp (sa1 sa2 : Sockaddr) (prefixlength : ℕ) : Bool :=
  if prefixlength = 0 then true
  else
    let (realaf1, addr1) := realAddress sa1
    let (realaf2, addr2) := realAddress sa2
    if realaf1 != realaf2 then false
    else
      let quot := prefixlength / 8
      let rem := prefixlength % 8
      ((List.range quot).all fun i => addr1.getD i 0 == addr2.getD i 0) &&
        (rem == 0 || addr1.getD quot 0 &&& mask rem == addr2.getD quot 0 &&& mask rem)

/-! ## Networks -/

/-- The IPv4 address that an address is, or that it is mapped from. -/
def narrow : Sockaddr → Option (BitVec 32)
  | .inet sin_addr => some sin_addr
  | .inet6 sin6_addr => if in6IsAddrV4mapped sin6_addr then some (sin6_addr.setWidth 32) else none

/-- The address in the IPv6 family. -/
def wide : Sockaddr → BitVec 128
  | .inet sin_addr => 0xffff#96 ++ sin_addr
  | .inet6 sin6_addr => sin6_addr

/-- The address has the first bits in common with the network, once both are written in the family
of the network. An address that is no IPv4 one has none in common with an IPv4 network. -/
def SameNetwork (addr net : Sockaddr) (prefixlength : ℕ) : Prop :=
  match net with
  | .inet sin_addr =>
    match narrow addr with
    | some a => AgreeOn prefixlength a.getMsbD sin_addr.getMsbD
    | none => prefixlength = 0
  | .inet6 sin6_addr => AgreeOn prefixlength (wide addr).getMsbD sin6_addr.getMsbD

/-- What the bytes that are compared do not misjudge: an empty prefix, an IPv4 network, two
addresses of which neither is an IPv4 one, two IPv4 ones that do not differ first behind the prefix
and within the first bits of that number, and two of different families that differ in the prefix. -/
def ComparedAlike (addr net : Sockaddr) (prefixlength : ℕ) : Prop :=
  prefixlength = 0 ∨
  match net with
  | .inet _ => True
  | .inet6 sin6_addr =>
    match narrow addr, narrow (.inet6 sin6_addr) with
    | some a, some n => AgreeOn (prefixlength - 96) a.getMsbD n.getMsbD →
      AgreeOn (min prefixlength 32) a.getMsbD n.getMsbD
    | none, none => True
    | _, _ => ¬ AgreeOn prefixlength (wide addr).getMsbD sin6_addr.getMsbD

section Bits

variable {a n : BitVec 32} {v w : BitVec 128} {ss addr net : Sockaddr} {p : ℕ}

theorem bit_realAddress_inet (i : ℕ) : bit (realAddress (.inet a)).2 i = a.getMsbD i := by
  rw [realAddress, bit_append_zeros, bit_bytes 4]

theorem getMsbD_setWidth_narrow {i : ℕ} (hi : i < 32) :
    (v.setWidth 32).getMsbD i = v.getMsbD (96 + i) := by
  have hpos : i + 128 - 32 = 96 + i := by omega
  rw [BitVec.getMsbD_setWidth, hpos]
  rfl

theorem wide_of_narrow (h : narrow ss = some a) : wide ss = 0xffff#96 ++ a := by
  cases ss with
  | inet sin_addr =>
    cases h
    rfl
  | inet6 sin6_addr =>
    rw [narrow] at h
    split_ifs at h with hmapped
    cases h
    have hshift : sin6_addr >>> 32 = 0xffff#128 := beq_iff_eq.mp hmapped
    apply BitVec.eq_of_getLsbD_eq
    intro i hi
    rw [BitVec.getLsbD_append, wide]
    split_ifs with hlow
    · simp [hlow]
    · have hbit := congrArg (fun v : BitVec 128 => v.getLsbD (i - 32)) hshift
      have hback : 32 + (i - 32) = i := by omega
      rw [BitVec.getLsbD_ushiftRight, hback] at hbit
      rw [hbit]
      have hhigh : i - 32 < 96 := by omega
      have hwide : i - 32 < 128 := by omega
      rw [BitVec.getLsbD_ofNat, BitVec.getLsbD_ofNat]
      simp [hhigh, hwide]

/-- What is compared of an address that is an IPv4 one. -/
theorem bit_realAddress_of_narrow (h : narrow ss = some a) :
    (realAddress ss).1 = true ∧ ∀ i, bit (realAddress ss).2 i = a.getMsbD i := by
  cases ss with
  | inet sin_addr =>
    cases h
    exact ⟨rfl, bit_realAddress_inet⟩
  | inet6 sin6_addr =>
    rw [narrow] at h
    split_ifs at h with hmapped
    cases h
    rw [realAddress, if_pos hmapped]
    refine ⟨rfl, fun i => ?_⟩
    rw [bit_drop, bit_append_zeros, bit_bytes 16]
    by_cases hi : i < 32
    · exact (getMsbD_setWidth_narrow hi).symm
    · rw [BitVec.getMsbD_of_ge _ _ (by omega), BitVec.getMsbD_of_ge _ _ (by omega)]

theorem bit_realAddress_of_wide (h : narrow ss = none) :
    (realAddress ss).1 = false ∧ ∀ i, bit (realAddress ss).2 i = (wide ss).getMsbD i := by
  cases ss with
  | inet sin_addr => exact nomatch h
  | inet6 sin6_addr =>
    have hmapped : ¬ in6IsAddrV4mapped sin6_addr = true := fun hm => by
      rw [narrow, if_pos hm] at h
      exact nomatch h
    rw [realAddress, if_neg hmapped]
    exact ⟨rfl, fun i => (bit_append_zeros 104 i).trans (bit_bytes 16 sin6_addr i)⟩

theorem sacmp_eq_true_iff (hp : p ≠ 0) :
    sacmp addr net p = true ↔ (realAddress addr).1 = (realAddress net).1 ∧
      AgreeOn p (bit (realAddress addr).2) (bit (realAddress net).2) := by
  rw [sacmp, if_neg hp]
  dsimp only
  by_cases hfamily : (realAddress addr).1 = (realAddress net).1
  · rw [if_neg (by simp [hfamily]), agreeOn_iff_bytes]
    simp only [hfamily, true_and, Bool.and_eq_true, List.all_eq_true, List.mem_range, beq_iff_eq,
      Bool.or_eq_true]
    exact and_congr_right' or_iff_not_imp_left
  · rw [if_pos (by simpa using hfamily)]
    exact ⟨nofun, fun h => absurd h.1 hfamily⟩

theorem sacmp_of_narrow {b : BitVec 32} (hp : p ≠ 0) (ha : narrow addr = some a)
    (hb : narrow net = some b) :
    sacmp addr net p = true ↔ AgreeOn (min p 32) a.getMsbD b.getMsbD := by
  obtain ⟨hfamily, hbits⟩ := bit_realAddress_of_narrow ha
  obtain ⟨hfamily', hbits'⟩ := bit_realAddress_of_narrow hb
  rw [sacmp_eq_true_iff hp, hfamily, hfamily', funext hbits, funext hbits',
    ← agreeOn_min (fun i hi => BitVec.getMsbD_of_ge _ _ hi) fun i hi => BitVec.getMsbD_of_ge _ _ hi]
  exact and_iff_right rfl

theorem sacmp_of_wide (hp : p ≠ 0) (ha : narrow addr = none) (hb : narrow net = none) :
    sacmp addr net p = true ↔ AgreeOn p (wide addr).getMsbD (wide net).getMsbD := by
  obtain ⟨hfamily, hbits⟩ := bit_realAddress_of_wide ha
  obtain ⟨hfamily', hbits'⟩ := bit_realAddress_of_wide hb
  rw [sacmp_eq_true_iff hp, hfamily, hfamily', funext hbits, funext hbits']
  exact and_iff_right rfl

theorem sacmp_of_families (hp : p ≠ 0) (h : (narrow addr).isSome ≠ (narrow net).isSome) :
    sacmp addr net p = false := by
  have hfamily : ∀ ss : Sockaddr, (realAddress ss).1 = (narrow ss).isSome := by
    intro ss
    cases hss : narrow ss with
    | none => exact (bit_realAddress_of_wide hss).1
    | some a => exact (bit_realAddress_of_narrow hss).1
  rw [Bool.eq_false_iff]
  intro htrue
  have hsame := ((sacmp_eq_true_iff hp).mp htrue).1
  rw [hfamily, hfamily] at hsame
  exact h hsame

/-- Of two IPv4 addresses in the other family the first 96 bits are the same. -/
theorem agreeOn_wide_iff {b : BitVec 32} (ha : narrow addr = some a) (hb : narrow net = some b) :
    AgreeOn p (wide addr).getMsbD (wide net).getMsbD ↔ AgreeOn (p - 96) a.getMsbD b.getMsbD := by
  rw [wide_of_narrow ha, wide_of_narrow hb]
  have hlow : ∀ c : BitVec 32, ∀ i < 96, (0xffff#96 ++ c).getMsbD i = (0xffff#96).getMsbD i := by
    intro c i hi
    rw [BitVec.getMsbD_append, if_neg (by omega)]
  have hhigh : ∀ c : BitVec 32, ∀ i, (0xffff#96 ++ c).getMsbD (96 + i) = c.getMsbD i := by
    intro c i
    rw [BitVec.getMsbD_append, if_pos (by omega), Nat.add_sub_cancel_left]
  by_cases hp : p ≤ 96
  · rw [Nat.sub_eq_zero_of_le hp]
    constructor
    · exact fun _ i hi => absurd hi (Nat.not_lt_zero i)
    · intro _ i hi
      rw [hlow a i (by omega), hlow b i (by omega)]
  · obtain ⟨q, rfl⟩ : ∃ q, p = 96 + q := ⟨p - 96, by omega⟩
    rw [agreeOn_add, Nat.add_sub_cancel_left, funext (hhigh a), funext (hhigh b)]
    refine and_iff_right fun i hi => ?_
    rw [hlow a i hi, hlow b i hi]

end Bits

/-- For every address and every network, `sacmp` answers whether they agree on the bits of the
prefix if and only if the bytes that it compares do not misjudge them. -/
theorem sacmp_iff_sameNetwork (addr : Sockaddr) (net : OsIp) :
    (sacmp addr net.ss net.prefixlength = true ↔ SameNetwork addr net.ss net.prefixlength) ↔
      ComparedAlike addr net.ss net.prefixlength := by
  obtain ⟨ip, ss, p, hp⟩ := net
  dsimp only at hp ⊢
  by_cases hzero : p = 0
  · -- there is nothing to compare
    subst hzero
    refine ⟨fun _ => .inl rfl, fun _ => ⟨fun _ => ?_, fun _ => rfl⟩⟩
    have hnothing : ∀ f g : ℕ → Bool, AgreeOn 0 f g := fun _ _ i hi =>
      absurd hi (Nat.not_lt_zero i)
    cases ss with
    | inet sin_addr =>
      rw [SameNetwork]
      split
      · exact hnothing _ _
      · rfl
    | inet6 sin6_addr => exact hnothing _ _
  · cases ss with
    | inet sin_addr =>
      refine ⟨fun _ => .inr trivial, fun _ => ?_⟩
      rw [SameNetwork]
      cases ha : narrow addr with
      | none =>
        rw [sacmp_of_families hzero (by rw [ha]; nofun)]
        exact ⟨nofun, fun h => absurd h hzero⟩
      | some a =>
        rw [sacmp_of_narrow hzero ha rfl]
        exact (agreeOn_min (fun i hi => BitVec.getMsbD_of_ge _ _ hi)
          fun i hi => BitVec.getMsbD_of_ge _ _ hi).symm
    | inet6 sin6_addr =>
      have hsame : SameNetwork addr (.inet6 sin6_addr) p ↔
          AgreeOn p (wide addr).getMsbD (wide (.inet6 sin6_addr)).getMsbD := Iff.rfl
      rw [hsame, ComparedAlike, or_iff_right hzero]
      cases ha : narrow addr with
      | none =>
        cases hb : narrow (.inet6 sin6_addr) with
        | none => exact iff_of_true (sacmp_of_wide hzero ha hb) trivial
        | some b =>
          rw [sacmp_of_families hzero (by rw [ha, hb]; nofun)]
          exact ⟨fun h hagree => Bool.false_ne_true (h.mpr hagree),
            fun h => ⟨nofun, fun hagree => absurd hagree h⟩⟩
      | some a =>
        cases hb : narrow (.inet6 sin6_addr) with
        | none =>
          rw [sacmp_of_families hzero (by rw [ha, hb]; nofun)]
          exact ⟨fun h hagree => Bool.false_ne_true (h.mpr hagree),
            fun h => ⟨nofun, fun hagree => absurd hagree h⟩⟩
        | some b =>
          rw [sacmp_of_narrow hzero ha hb, agreeOn_wide_iff ha hb]
          have hshorter : p - 96 ≤ min p 32 := by
            have hwidth : p ≤ 128 := hp
            omega
          exact ⟨fun h => h.mpr, fun h => ⟨fun hmin => hmin.mono hshorter, h⟩⟩

/-- The network `::ffff:10.0.0.0/104` is that of the addresses `10.*.*.*`. -/
theorem not_sameNetwork :
    ¬ ∀ (addr : Sockaddr) (net : OsIp), sacmp addr net.ss net.prefixlength = true ↔
      SameNetwork addr net.ss net.prefixlength := by
  intro h
  have hcall := h (.inet 0x0a010203)
    ⟨lit "::ffff:10.0.0.0/104", .inet6 0xffff0a000000, 104, by decide⟩
  have hsame : SameNetwork (.inet 0x0a010203) (.inet6 0xffff0a000000) 104 := by
    show AgreeOn 104 _ _
    decide
  exact absurd (hcall.mpr hsame) (by decide)

end ValidateOp
