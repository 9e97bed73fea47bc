import LAppS.NetworkACL.Cidr
import LAppS.NetworkACL.Match

/-!
The comparison of entries, and what `std::set` demands of it. The left entry cuts both addresses to its own mask, so
that two entries of different prefixes are compared under one mask or the other, whichever is on the left.
-/

namespace LAppS
open BinaryTree

namespace Addrinfo

variable {e f g : Addrinfo} {p q : Nat}

/-- The two denote one network or one host. -/
def Same (e f : Addrinfo) : Prop := ∀ x, e.Covers x ↔ f.Covers x

/-- The address of the entry, cut to a mask. -/
def cut (e : Addrinfo) (m : Word) : Word := e.address &&& m

/-- The mask is that of a prefix. -/
def OfLength (e : Addrinfo) (p : Nat) : Prop := p ≤ 32 ∧ LeadingOnes p e.mask

/-- Two entries, the first with the shorter prefix or the same: their addresses compare alike under both masks.
Under the shorter one they may be the same if the second is the lesser. -/
def ComparedAlike (e f : Addrinfo) : Prop :=
  e.cut e.mask < f.cut e.mask ∧ e.cut f.mask < f.cut f.mask ∨
  f.cut f.mask < e.cut f.mask ∧ f.cut e.mask ≤ e.cut e.mask

/-- Three entries with growing prefixes stand in a circle, one way round or the other: each step of it is taken
under the mask of the entry that is left. -/
def InCircle (e f g : Addrinfo) : Prop :=
  e.cut e.mask < f.cut e.mask ∧ f.cut f.mask < g.cut f.mask ∧ g.cut g.mask < e.cut g.mask ∨
  e.cut e.mask < g.cut e.mask ∧ g.cut g.mask < f.cut g.mask ∧ f.cut f.mask < e.cut f.mask

theorem same_equivalence : Equivalence Same where
  refl _ _ := Iff.rfl
  symm h x := (h x).symm
  trans h h' x := (h x).trans (h' x)

theorem network_eq_cut (e : Addrinfo) : e.network = e.cut e.mask := BitVec.and_comm ..

theorem lt_iff_cut : e.lt f = true ↔ e.cut e.mask < f.cut e.mask := by
  rw [lt_iff, Above, network_eq_cut]
  rfl

theorem lt_false_iff_cut : e.lt f = false ↔ f.cut e.mask ≤ e.cut e.mask := by
  rw [← Bool.not_eq_true, lt_iff_cut, BitVec.not_lt]

theorem nested (he : e.OfLength p) (hf : f.OfLength q) (hpq : p ≤ q) : e.mask &&& f.mask = e.mask := by
  apply eq_of_networkBit
  intro i hi
  rw [networkBit_and, he.2 i hi, hf.2 i hi]
  by_cases inside : i < p
  · rw [decide_eq_true inside, decide_eq_true (Nat.lt_of_lt_of_le inside hpq), Bool.and_self]
  · rw [decide_eq_false inside, Bool.false_and]

theorem mask_eq (he : e.OfLength p) (hf : f.OfLength p) : e.mask = f.mask :=
  eq_of_networkBit fun i hi => (he.2 i hi).trans (hf.2 i hi).symm

/-- What agrees under a mask agrees under a smaller one. -/
theorem cut_eq_of_nested {m n : Word} (h : m &&& n = m) (eq : e.cut n = f.cut n) : e.cut m = f.cut m := by
  have smaller : ∀ e : Addrinfo, e.cut m = e.cut n &&& m := fun e => by
    rw [cut, cut, BitVec.and_assoc, BitVec.and_comm n, h]
  rw [smaller e, smaller f, eq]

/-! ### Entries that denote the same -/

/-- Two networks that have the same addresses have the same mask. -/
theorem Same.mask_eq_of_nested (same : e.Same f) (he : e.isNetwork = true) (hf : f.isNetwork = true)
    (inside : e.mask &&& f.mask = e.mask) : e.mask = f.mask := by
  have own : e.network &&& e.mask = e.network := and_submask BitVec.and_self e.address
  have first := (covers_network hf).mp ((same _).mp ((covers_network he).mpr own))
  have last := (covers_network hf).mp ((same _).mp ((covers_network he).mpr e.last_and_mask))
  -- the first and the last address differ in the bits outside of the mask
  ext i hi
  have bit := congrArg (fun w : Word => w[i]) (first.trans last.symm)
  have sub := congrArg (fun w : Word => w[i]) inside
  simp only [Addrinfo.last, network, BitVec.getElem_and, BitVec.getElem_or, BitVec.getElem_not] at bit sub
  revert bit sub
  cases e.mask[i] <;> cases f.mask[i] <;> cases e.address[i] <;> decide

theorem Same.address_eq (same : e.Same f) (hf : f.isNetwork = false) : e.address = f.address :=
  (covers_host hf).mp ((same _).mp e.covers_self)

theorem Same.cases (same : e.Same f) (he : e.OfLength p) (hf : f.OfLength q) :
    e.mask = f.mask ∧ e.network = f.network ∨ e.address = f.address := by
  cases kind : f.isNetwork with
  | false => exact .inr (same.address_eq kind)
  | true =>
    cases kind' : e.isNetwork with
    | false => exact .inr ((same_equivalence.symm same).address_eq kind').symm
    | true =>
      have masks : e.mask = f.mask := by
        rcases Nat.le_total p q with le | le
        · exact same.mask_eq_of_nested kind' kind (nested he hf le)
        · exact ((same_equivalence.symm same).mask_eq_of_nested kind kind' (nested hf he le)).symm
      have covers := (covers_network kind).mp ((same _).mp e.covers_self)
      exact .inl ⟨masks, by rw [network_eq_cut, cut, masks, covers]⟩

theorem Same.tie (same : e.Same f) (he : e.OfLength p) (hf : f.OfLength q) : e.lt f = false := by
  rw [lt_false_iff_cut]
  rcases same.cases he hf with ⟨masks, networks⟩ | addresses
  · rw [network_eq_cut, network_eq_cut, ← masks] at networks
    exact BitVec.le_of_eq networks.symm
  · rw [cut, cut, addresses]
    exact BitVec.le_refl _

theorem Same.alike (same : e.Same f) (he : e.OfLength p) (hf : f.OfLength q) :
    (∀ g, e.lt g = f.lt g) ∨ ∀ g : Addrinfo, g.lt e = g.lt f := by
  rcases same.cases he hf with ⟨masks, networks⟩ | addresses
  · exact .inl fun g => by rw [lt, lt, masks, networks]
  · exact .inr fun g => by rw [lt, lt, addresses]

/-! ### Pairs and circles -/

theorem comparedAlike_iff (inside : e.mask &&& f.mask = e.mask) :
    e.ComparedAlike f ↔ Less lt e f ∨ Less lt f e := by
  simp only [Less, lt_iff_cut, lt_false_iff_cut]
  constructor
  · rintro (⟨shorter, longer⟩ | ⟨longer, shorter⟩)
    · exact .inl ⟨shorter, BitVec.le_of_lt longer⟩
    · exact .inr ⟨longer, shorter⟩
  · rintro (⟨shorter, longer⟩ | ⟨longer, shorter⟩)
    · refine .inl ⟨shorter, Nat.lt_of_le_of_ne longer fun eq => ?_⟩
      rw [cut_eq_of_nested inside (BitVec.eq_of_toNat_eq eq)] at shorter
      exact BitVec.lt_irrefl _ shorter
    · exact .inr ⟨longer, shorter⟩

/-- Two entries of one mask are no part of a circle. -/
theorem no_circle_of_mask_eq (masks : e.mask = f.mask) (ef : Less lt e f) (fg : Less lt f g) : ¬Less lt g e := by
  simp only [Less, lt_iff_cut, lt_false_iff_cut] at ef fg ⊢
  rintro ⟨-, ge⟩
  have lt : e.cut e.mask < g.cut e.mask := by
    rw [masks] at ef ⊢
    exact BitVec.lt_trans ef.1 fg.1
  exact BitVec.not_lt.mpr ge lt

/-- The first has the shorter prefix. -/
def Shorter (e f : Addrinfo) : Prop := e.mask &&& f.mask = e.mask ∧ e.mask ≠ f.mask

/-- The addresses of any two entries that do not denote the same compare alike under both masks, and no three entries
of different prefixes stand in a circle. -/
structure InOrder (E : Set Addrinfo) : Prop where
  pairs : ∀ e ∈ E, ∀ f ∈ E, e.mask &&& f.mask = e.mask → ¬e.Same f → e.ComparedAlike f
  circles : ∀ e ∈ E, ∀ f ∈ E, ∀ g ∈ E, e.Shorter f → f.Shorter g → ¬e.InCircle f g

/-- A circle, seen from its entry with the shortest prefix. -/
theorem no_circle_of_shortest {r : Nat} {E : Set Addrinfo}
    (circles : ∀ e ∈ E, ∀ f ∈ E, ∀ g ∈ E, e.Shorter f → f.Shorter g → ¬e.InCircle f g)
    (he : e ∈ E) (hf : f ∈ E) (hg : g ∈ E) (hp : e.OfLength p) (hq : f.OfLength q) (hr : g.OfLength r)
    (pq : p ≤ q) (pr : p ≤ r) (ef : Less lt e f) (fg : Less lt f g) : ¬Less lt g e := by
  intro ge
  have different : e.mask ≠ f.mask ∧ f.mask ≠ g.mask ∧ g.mask ≠ e.mask :=
    ⟨fun eq => no_circle_of_mask_eq eq ef fg ge, fun eq => no_circle_of_mask_eq eq fg ge ef,
      fun eq => no_circle_of_mask_eq eq ge ef fg⟩
  have steps := And.intro (lt_iff_cut.mp ef.1) (And.intro (lt_iff_cut.mp fg.1) (lt_iff_cut.mp ge.1))
  rcases Nat.le_total q r with qr | rq
  · exact circles e he f hf g hg ⟨nested hp hq pq, different.1⟩ ⟨nested hq hr qr, different.2.1⟩ (.inl steps)
  · exact circles e he g hg f hf ⟨nested hp hr pr, different.2.2.symm⟩ ⟨nested hr hq rq, different.2.1.symm⟩
      (.inr steps)

section Sets

variable {E : Set Addrinfo} (prefixes : ∀ e ∈ E, ∃ p, e.OfLength p)
include prefixes

theorem tie_of_mem : ∀ e ∈ E, ∀ f ∈ E, e.Same f → e.lt f = false := by
  intro e he f hf same
  obtain ⟨p, hp⟩ := prefixes e he
  obtain ⟨q, hq⟩ := prefixes f hf
  exact same.tie hp hq

theorem alike_of_mem : ∀ e ∈ E, ∀ f ∈ E, e.Same f → (∀ g, e.lt g = f.lt g) ∨ ∀ g : Addrinfo, g.lt e = g.lt f := by
  intro e he f hf same
  obtain ⟨p, hp⟩ := prefixes e he
  obtain ⟨q, hq⟩ := prefixes f hf
  exact same.alike hp hq

/-- Where any two are told from each other, a comparison that holds does not hold the other way round. -/
theorem less_of_lt (pairs : ∀ e ∈ E, ∀ f ∈ E, ¬e.Same f → Less lt e f ∨ Less lt f e) (he : e ∈ E) (hf : f ∈ E)
    (ef : e.lt f = true) : Less lt e f := by
  have different : ¬e.Same f := by
    intro same
    rw [tie_of_mem prefixes e he f hf same] at ef
    cases ef
  rcases pairs e he f hf different with less | less
  · exact less
  · rw [less.2] at ef
    cases ef

theorem pairs_iff :
    (∀ e ∈ E, ∀ f ∈ E, e.mask &&& f.mask = e.mask → ¬e.Same f → e.ComparedAlike f) ↔
      ∀ e ∈ E, ∀ f ∈ E, ¬e.Same f → Less lt e f ∨ Less lt f e := by
  constructor
  · intro alike e he f hf different
    obtain ⟨p, hp⟩ := prefixes e he
    obtain ⟨q, hq⟩ := prefixes f hf
    rcases Nat.le_total p q with le | le
    · have inside := nested hp hq le
      exact (comparedAlike_iff inside).mp (alike e he f hf inside different)
    · have inside := nested hq hp le
      have different' : ¬f.Same e := fun same => different (same_equivalence.symm same)
      exact ((comparedAlike_iff inside).mp (alike f hf e he inside different')).symm
  · intro pairs e he f hf inside different
    exact (comparedAlike_iff inside).mpr (pairs e he f hf different)

theorem inOrder_of_weakOrder (order : WeakOrder lt Same E) : InOrder E := by
  obtain ⟨pairs, circles⟩ :=
    (weakOrder_iff same_equivalence (tie_of_mem prefixes) (alike_of_mem prefixes)).mp order
  refine ⟨(pairs_iff prefixes).mpr pairs, fun e he f hf g hg _ _ circle => ?_⟩
  rcases circle with ⟨ef, fg, ge⟩ | ⟨eg, gf, fe⟩
  · exact circles e he f hf g hg (less_of_lt prefixes pairs he hf (lt_iff_cut.mpr ef))
      (less_of_lt prefixes pairs hf hg (lt_iff_cut.mpr fg)) (less_of_lt prefixes pairs hg he (lt_iff_cut.mpr ge))
  · exact circles e he g hg f hf (less_of_lt prefixes pairs he hg (lt_iff_cut.mpr eg))
      (less_of_lt prefixes pairs hg hf (lt_iff_cut.mpr gf)) (less_of_lt prefixes pairs hf he (lt_iff_cut.mpr fe))

theorem InOrder.weakOrder (order : InOrder E) : WeakOrder lt Same E := by
  rw [weakOrder_iff same_equivalence (tie_of_mem prefixes) (alike_of_mem prefixes)]
  refine ⟨(pairs_iff prefixes).mp order.pairs, fun a ha b hb c hc ab bc ca => ?_⟩
  obtain ⟨p, hp⟩ := prefixes a ha
  obtain ⟨q, hq⟩ := prefixes b hb
  obtain ⟨r, hr⟩ := prefixes c hc
  -- the circle is turned until the shortest prefix is first
  obtain ⟨pq, pr⟩ | ⟨qr, qp⟩ | ⟨rp, rq⟩ : p ≤ q ∧ p ≤ r ∨ q ≤ r ∧ q ≤ p ∨ r ≤ p ∧ r ≤ q := by omega
  · exact no_circle_of_shortest order.circles ha hb hc hp hq hr pq pr ab bc ca
  · exact no_circle_of_shortest order.circles hb hc ha hq hr hp qr qp bc ca ab
  · exact no_circle_of_shortest order.circles hc ha hb hr hp hq rp rq ca ab bc

end Sets

/-- On a set of entries with masks of prefixes, the comparison is a strict weak order that tells different entries
from each other exactly when the entries are in order. -/
theorem weak_order_iff (E : Set Addrinfo) (prefixes : ∀ e ∈ E, ∃ p, e.OfLength p) :
    WeakOrder lt Same E ↔ InOrder E :=
  ⟨inOrder_of_weakOrder prefixes, InOrder.weakOrder prefixes⟩

-- the networks `10.0.0.0/8` and `11.0.0.0/16`
example :
    WeakOrder lt Same {⟨0x0000000A#32, 0x000000FF#32⟩, ⟨0x0000000B#32, 0x0000FFFF#32⟩} := by
  have first : OfLength ⟨0x0000000A#32, 0x000000FF#32⟩ 8 := ⟨by decide, by unfold LeadingOnes; decide⟩
  have second : OfLength ⟨0x0000000B#32, 0x0000FFFF#32⟩ 16 := ⟨by decide, by unfold LeadingOnes; decide⟩
  refine (weak_order_iff _ ?_).mpr ⟨?_, ?_⟩
  · rintro e (rfl | rfl)
    · exact ⟨8, first⟩
    · exact ⟨16, second⟩
  · rintro e (rfl | rfl) f (rfl | rfl) inside different
    · exact absurd (same_equivalence.refl _) different
    · exact .inl (by decide)
    · exact absurd inside (by decide)
    · exact absurd (same_equivalence.refl _) different
  · rintro e (rfl | rfl) f (rfl | rfl) g (rfl | rfl) ⟨inside, ne⟩ ⟨inside', ne'⟩
    all_goals first
      | exact absurd rfl ne
      | exact absurd rfl ne'
      | exact absurd inside (by decide)
      | exact absurd inside' (by decide)

/-! ### All addresses -/

theorem exists_leadingOnes {p : Nat} (h : p ≤ 32) : ∃ m, LeadingOnes p m := by
  have all : ∀ p < 33, ∀ i < 32, networkBit (Ipcalc.prefix2mask 0 p) i = decide (i < p) := by decide +kernel
  exact ⟨_, all p (by omega)⟩

/-- The network `0.0.0.0` and the host `0.0.0.1` with one mask are a tie. -/
theorem tie_of_short {p : Nat} {m : Word} (h : p < 32) (ones : LeadingOnes p m) :
    lt ⟨0#32, m⟩ ⟨0x01000000#32, m⟩ = false ∧ lt ⟨0x01000000#32, m⟩ ⟨0#32, m⟩ = false ∧
      ¬Same ⟨0#32, m⟩ ⟨0x01000000#32, m⟩ := by
  have bit : ∀ i < 32, networkBit 0x01000000#32 i = decide (i = 31) := by decide
  have outside : 0x01000000#32 &&& m = 0#32 := by
    apply eq_of_networkBit
    intro i hi
    have zero : networkBit 0#32 i = false := BitVec.getLsbD_zero
    rw [networkBit_and, bit i hi, ones i hi, zero, Bool.and_eq_false_iff, decide_eq_false_iff_not,
      decide_eq_false_iff_not]
    omega
  have host : isNetwork ⟨0x01000000#32, m⟩ = false := by
    rw [isNetwork, network, BitVec.and_comm, outside]
    show (decide (0#32 = 0x01000000#32) || decide (0x01000000#32 >>> 24 = 0#32)) = false
    decide
  refine ⟨?_, ?_, fun same => ?_⟩
  · rw [lt_false_iff_cut, cut, cut, outside, BitVec.zero_and]
    exact BitVec.le_refl _
  · rw [lt_false_iff_cut, cut, cut, outside, BitVec.zero_and]
    exact BitVec.le_refl _
  · have addresses : 0#32 = 0x01000000#32 := same.address_eq host
    exact absurd addresses (by decide)

theorem inOrder_of_hosts {E : Set Addrinfo} (hosts : ∀ e ∈ E, e.OfLength 32) : InOrder E := by
  have whole : ∀ e ∈ E, ∀ f : Addrinfo, f.cut e.mask = f.address := fun e he f =>
    and_mask_eq_self (hosts e he).2 fun i hi le => absurd hi (Nat.not_lt.mpr le)
  refine ⟨fun e he f hf _ different => ?_, fun e he f hf g hg shorter => ?_⟩
  · have addresses : e.address ≠ f.address := by
      intro eq
      have entries : e = f := by rw [Addrinfo.mk.injEq]; exact ⟨eq, mask_eq (hosts e he) (hosts f hf)⟩
      exact different (entries ▸ same_equivalence.refl e)
    rw [ComparedAlike, whole e he, whole e he, whole f hf, whole f hf]
    rcases Nat.lt_or_gt_of_ne fun eq => addresses (BitVec.eq_of_toNat_eq eq) with less | less
    · exact .inl ⟨less, less⟩
    · exact .inr ⟨less, BitVec.le_of_lt less⟩
  · exact absurd (mask_eq (hosts e he) (hosts f hf)) shorter.2

/-- For all addresses with the masks of some prefixes the comparison is a strict weak order that tells different
entries from each other exactly when the only prefix is 32. -/
theorem weak_order_prefixes_iff (P : Set Nat) (lengths : ∀ p ∈ P, p ≤ 32) :
    WeakOrder lt Same {e | ∃ p ∈ P, e.OfLength p} ↔ ∀ p ∈ P, p = 32 := by
  constructor
  · intro order p hp
    by_contra short
    obtain ⟨m, ones⟩ := exists_leadingOnes (lengths p hp)
    obtain ⟨tie, tie', different⟩ := tie_of_short (Nat.lt_of_le_of_ne (lengths p hp) short) ones
    have mem : ∀ a : Word, (⟨a, m⟩ : Addrinfo) ∈ {e : Addrinfo | ∃ p ∈ P, e.OfLength p} :=
      fun a => ⟨p, hp, lengths p hp, ones⟩
    exact order.separates _ (mem _) _ (mem _) different ⟨tie, tie'⟩
  · intro all
    have hosts : ∀ e ∈ {e : Addrinfo | ∃ p ∈ P, e.OfLength p}, e.OfLength 32 := by
      rintro e ⟨p, hp, length⟩
      rwa [all p hp] at length
    exact (weak_order_iff _ fun e he => ⟨32, hosts e he⟩).mpr (inOrder_of_hosts hosts)

/-- The hosts. -/
theorem weak_order_hosts :
    (∀ p ∈ ({32} : Set Nat), p ≤ 32) ∧ WeakOrder lt Same {e | ∃ p ∈ ({32} : Set Nat), e.OfLength p} :=
  have lengths : ∀ p ∈ ({32} : Set Nat), p ≤ 32 := fun _ hp => Nat.le_of_eq hp
  ⟨lengths, (weak_order_prefixes_iff {32} lengths).mpr fun _ hp => hp⟩

/-- The hosts `10.0.0.1` and `10.0.0.2` are a tie, and adding the second leaves the set as it is. The hosts
`10.20.0.1` and `172.16.0.1` are each less than the other. The hosts `1.0.2.1/8`, `2.1.0.1/16` and `0.2.1.1/24` stand
in a circle. -/
theorem weak_order_counterexample :
    (lt ⟨0x0100000A#32, 0x000000FF#32⟩ ⟨0x0200000A#32, 0x000000FF#32⟩ = false ∧
      lt ⟨0x0200000A#32, 0x000000FF#32⟩ ⟨0x0100000A#32, 0x000000FF#32⟩ = false ∧
      ¬Same ⟨0x0100000A#32, 0x000000FF#32⟩ ⟨0x0200000A#32, 0x000000FF#32⟩ ∧
      (((NetworkACL.new .deny).add .none ⟨0x0100000A#32, 0x000000FF#32⟩).add .none
        ⟨0x0200000A#32, 0x000000FF#32⟩).mExcludeAddresses.inorder = [⟨0x0100000A#32, 0x000000FF#32⟩]) ∧
    (lt ⟨0x0100140A#32, 0x000000FF#32⟩ ⟨0x010010AC#32, 0x0000FFFF#32⟩ = true ∧
      lt ⟨0x010010AC#32, 0x0000FFFF#32⟩ ⟨0x0100140A#32, 0x000000FF#32⟩ = true) ∧
    (lt ⟨0x01020001#32, 0x000000FF#32⟩ ⟨0x01000102#32, 0x0000FFFF#32⟩ = true ∧
      lt ⟨0x01000102#32, 0x0000FFFF#32⟩ ⟨0x01010200#32, 0x00FFFFFF#32⟩ = true ∧
      lt ⟨0x01020001#32, 0x000000FF#32⟩ ⟨0x01010200#32, 0x00FFFFFF#32⟩ = false) := by
  refine ⟨⟨by decide, by decide, fun same => ?_, by decide⟩, by decide, by decide⟩
  have covers : Covers ⟨0x0200000A#32, 0x000000FF#32⟩ 0x0100000A#32 := (same _).mp (by decide)
  exact absurd covers (by decide)

end Addrinfo
end LAppS
