import LAppS.Container.SearchTree
import LAppS.NetworkACL.Ipcalc
import Mathlib.Data.Set.Basic

/-!
The network ACL: the entries that are networks and the others are kept in two ordered sets, and a lookup asks one
candidate of the first. The comparison of the entries is not an order, so that what is found depends on the other
entries and on the order of the calls. `Separated` says for which entries the ACL means what its list says.
-/

namespace LAppS
open BinaryTree

inductive NetworkACLPolicy where
  | deny | allow
  deriving DecidableEq, Repr

structure NetworkACL where
  mPolicy : NetworkACLPolicy
  mExcludeNetworks : BinaryTree Addrinfo
  mExcludeAddresses : BinaryTree Addrinfo

namespace NetworkACL

def new (policy : NetworkACLPolicy) : NetworkACL := ⟨policy, nil, nil⟩

section Operations

variable (balancing : Balancing Addrinfo) (shl32 : Word)

def add (acl : NetworkACL) (address : Addrinfo) : NetworkACL :=
  if address.isNetwork then
    { acl with mExcludeNetworks := acl.mExcludeNetworks.emplace balancing Addrinfo.lt address }
  else { acl with mExcludeAddresses := acl.mExcludeAddresses.emplace balancing Addrinfo.lt address }

def del (acl : NetworkACL) (address : Addrinfo) : NetworkACL :=
  if address.isNetwork then
    { acl with mExcludeNetworks := acl.mExcludeNetworks.eraseKey balancing Addrinfo.lt address }
  else { acl with mExcludeAddresses := acl.mExcludeAddresses.eraseKey balancing Addrinfo.lt address }

/-- The overload of `match` for an `addrinfo`. -/
def matchInfo (acl : NetworkACL) (address : Addrinfo) : Bool :=
  match acl.mExcludeNetworks.inorder[acl.mExcludeNetworks.lowerBound Addrinfo.lt address]? with
  | some it => it.within address
  | none => (acl.mExcludeAddresses.find Addrinfo.lt address).isSome

/-- The overload for an address, which has the same body. -/
def matchAddress (acl : NetworkACL) (address : Word) : Bool := acl.matchInfo (.ofAddress shl32 address)

/-- The filter of a service, and of the listeners. -/
def filterIP (acl : NetworkACL) (address : Word) : Bool :=
  match acl.mPolicy with
  | .allow => acl.matchAddress shl32 address
  | .deny => !acl.matchAddress shl32 address

end Operations

end NetworkACL

/-! ### What the list says -/

namespace Addrinfo

/-- A network has the addresses that agree with it under its mask, a host has its own. -/
def Covers (e : Addrinfo) (x : Word) : Prop := if e.isNetwork then x &&& e.mask = e.network else x = e.address

instance (e : Addrinfo) (x : Word) : Decidable (e.Covers x) := 
  inferInstanceAs (Decidable (if e.isNetwork = true then x &&& e.mask = e.network else x = e.address))

/-- An address is greater than an entry, under the mask of the entry. -/
def Above (e : Addrinfo) (x : Word) : Prop := e.network < x &&& e.mask

instance (e : Addrinfo) (x : Word) : Decidable (e.Above x) := inferInstanceAs (Decidable (_ < _))

/-- One network can be asked before the other: its addresses are not above the other, and those of the other are
above it or its own. -/
structure Precedes (e f : Addrinfo) : Prop where
  above : e.Above f.address
  notAbove : ¬f.Above e.address
  before : ∀ x, e.Covers x → ¬f.Above x
  behind : ∀ x, f.Covers x → ¬e.Above x → e.Covers x

/-- The order of the hosts. -/
def Before (h g : Addrinfo) : Prop := h.Above g.address ∧ ¬g.Above h.address

end Addrinfo

namespace NetworkACL

inductive Call where
  | add (address : Addrinfo)
  | del (address : Addrinfo)

def Call.entry : Call → Addrinfo
  | .add e => e
  | .del e => e

def call (balancing : Balancing Addrinfo) (acl : NetworkACL) : Call → NetworkACL
  | .add e => acl.add balancing e
  | .del e => acl.del balancing e

/-- The ACL after some calls. -/
def after (balancing : Balancing Addrinfo) (policy : NetworkACLPolicy) (calls : List Call) : NetworkACL :=
  calls.foldl (call balancing) (new policy)

def Call.list (entries : Set Addrinfo) : Call → Set Addrinfo
  | .add e => insert e entries
  | .del e => entries \ {e}

/-- The entries that are added and not deleted since. -/
def listed (calls : List Call) : Set Addrinfo := calls.foldl Call.list ∅

/-- At each call the entries of the list and that of the call are allowed together. -/
def Together (Allowed : Set (Set Addrinfo)) : Set Addrinfo → List Call → Prop
  | _, [] => True
  | entries, c :: calls => insert c.entry entries ∈ Allowed ∧ Together Allowed (c.list entries) calls

/-- A value that is built from a string of the configuration, with a prefix from 2 to 32. -/
def Configured (shl32 : Word) (e : Addrinfo) : Prop :=
  (∃ saddress, Ipcalc.parse shl32 saddress = .ok e) ∧ ∃ p, 2 ≤ p ∧ p ≤ 32 ∧ e.mask = Ipcalc.prefix2mask shl32 p

/-- Any two networks can be asked in an order. A host is told from every other address, from every other host in
one direction, and it is above the networks that do not have it. -/
structure Separated (shl32 : Word) (E : Set Addrinfo) : Prop where
  networks : ∀ e ∈ E, ∀ f ∈ E, e.isNetwork = true → f.isNetwork = true → e ≠ f → e.Precedes f ∨ f.Precedes e
  alone : ∀ h ∈ E, h.isNetwork = false → ∀ x, ¬h.Above x → ¬(Addrinfo.ofAddress shl32 x).Above h.address →
    x = h.address
  hosts : ∀ h ∈ E, ∀ g ∈ E, h.isNetwork = false → g.isNetwork = false → h ≠ g → h.Before g ∨ g.Before h
  apart : ∀ e ∈ E, ∀ h ∈ E, e.isNetwork = true → h.isNetwork = false → e.Above h.address ∨ e.Covers h.address

end NetworkACL

/-! ### The comparison -/

namespace Addrinfo

variable {e f g h : Addrinfo} {x : Word} {p q : Nat} {shl32 : Word}

theorem lt_iff : e.lt f = true ↔ e.Above f.address := decide_eq_true_iff

theorem lt_false_iff : e.lt f = false ↔ ¬e.Above f.address := decide_eq_false_iff_not

theorem covers_network (he : e.isNetwork = true) : e.Covers x ↔ x &&& e.mask = e.network := by rw [Covers, if_pos he]

theorem covers_host (he : e.isNetwork = false) : e.Covers x ↔ x = e.address := by
  rw [Covers, if_neg (Bool.eq_false_iff.mp he)]

theorem covers_self (e : Addrinfo) : e.Covers e.address := by
  unfold Covers
  split
  · exact BitVec.and_comm ..
  · rfl

theorem Covers.not_above (hx : e.Covers x) : ¬e.Above x := by
  have agrees : x &&& e.mask = e.network := by
    unfold Covers at hx
    split at hx
    · exact hx
    · rw [hx]
      exact BitVec.and_comm ..
  rw [Above, agrees]
  exact BitVec.lt_irrefl _

theorem lt_self (e : Addrinfo) : e.lt e = false := lt_false_iff.mpr e.covers_self.not_above

theorem within_network (he : e.isNetwork = true) : e.within f = decide (e.Covers f.address) := by
  rw [within, if_pos he]
  exact decide_eq_decide.mpr (covers_network he).symm

end Addrinfo

/-- Masks of prefixes are nested. -/
theorem prefix2mask_nested (shl32 : Word) {p q : Nat} (hp : 2 ≤ p) (hpq : p ≤ q) (hq : q ≤ 32) :
    Ipcalc.prefix2mask shl32 p &&& Ipcalc.prefix2mask shl32 q = Ipcalc.prefix2mask shl32 p := by
  have mask : ∀ r, 2 ≤ r → Ipcalc.prefix2mask shl32 r = Ipcalc.prefix2mask 0 r := fun r hr => by
    rw [Ipcalc.prefix2mask, Ipcalc.prefix2mask, if_neg (by omega), if_neg (by omega)]
  have all : ∀ q < 33, ∀ p < q + 1, 2 ≤ p →
      Ipcalc.prefix2mask 0 p &&& Ipcalc.prefix2mask 0 q = Ipcalc.prefix2mask 0 p := by decide +kernel
  rw [mask p hp, mask q (by omega)]
  exact all q (by omega) p (by omega) hp

namespace Addrinfo

section Rank

variable {e f g h : Addrinfo} {x : Word} {p q r : Nat} {shl32 : Word}

/-- The entry has a mask of some prefix. -/
structure OfPrefix (shl32 : Word) (e : Addrinfo) (p : Nat) : Prop where
  le : 2 ≤ p
  ge : p ≤ 32
  mask : e.mask = Ipcalc.prefix2mask shl32 p

theorem OfPrefix.nested (he : OfPrefix shl32 e p) (hf : OfPrefix shl32 f q) (hpq : p ≤ q) :
    e.mask &&& f.mask = e.mask := by
  rw [he.mask, hf.mask]
  exact prefix2mask_nested shl32 he.le hpq hf.ge

/-- The last address of a network. -/
def last (e : Addrinfo) : Word := e.network ||| ~~~e.mask

theorem last_and_mask (e : Addrinfo) : e.last &&& e.mask = e.network := fill_and_mask e.address e.mask

/-- A network with the shorter prefix comes first only if its network is the smaller number. -/
theorem Precedes.network_lt (pre : e.Precedes f) (he : e.isNetwork = true) (nested : e.mask &&& f.mask = e.mask) :
    e.network < f.network := by
  have fits : e.last &&& f.mask ≤ f.network :=
    BitVec.not_lt.mp (pre.before e.last ((covers_network he).mpr e.last_and_mask))
  have le : e.network ≤ e.last &&& f.mask := by
    have own : e.network &&& f.mask = e.network := and_submask nested e.address
    calc e.network = e.network &&& f.mask := own.symm
      _ ≤ e.last &&& f.mask := and_mask_or_le ..
  rcases Nat.lt_or_eq_of_le (BitVec.le_trans le fits) with lt | eq
  · exact lt
  -- The networks are the same number: the last address of `e` under the mask of `f` has no more bits than that.
  · have eq : e.network = f.network := BitVec.eq_of_toNat_eq eq
    have same : e.last &&& f.mask = e.network := BitVec.le_antisymm (eq ▸ fits) le
    have masks : f.mask = e.mask := by
      ext i hi
      have bit := congrArg (fun w : Word => w[i]) same
      have sub := congrArg (fun w : Word => w[i]) nested
      simp only [last, network, BitVec.getElem_and, BitVec.getElem_or, BitVec.getElem_not] at bit sub
      revert bit sub
      cases e.mask[i] <;> cases f.mask[i] <;> cases e.address[i] <;> decide
    have above := pre.above
    rw [Above, ← masks, BitVec.and_comm, eq] at above
    exact absurd above (BitVec.lt_irrefl _)

theorem Precedes.network_le (pre : e.Precedes f) (he : e.isNetwork = true) (hf : f.isNetwork = true)
    (nested : f.mask &&& e.mask = f.mask) : e.network ≤ f.network := by
  have own : f.network &&& f.mask = f.network := and_submask BitVec.and_self f.address
  have cut : f.network &&& e.mask = f.network := and_submask nested f.address
  by_cases above : e.Above f.network
  · rw [Above, cut] at above
    exact BitVec.le_of_lt above
  · have covers := pre.behind f.network ((covers_network hf).mpr own) above
    rw [covers_network he, cut] at covers
    exact BitVec.le_of_eq covers.symm

/-- The numbers of the networks, and the prefixes where they are equal, tell the order. -/
theorem Precedes.rank (pre : e.Precedes f) (he : e.isNetwork = true) (hf : f.isNetwork = true)
    (hp : OfPrefix shl32 e p) (hq : OfPrefix shl32 f q) :
    e.network.toNat < f.network.toNat ∨ e.network.toNat = f.network.toNat ∧ q < p := by
  rcases Nat.lt_or_ge q p with lt | le
  · rcases Nat.lt_or_eq_of_le (pre.network_le he hf (hq.nested hp (Nat.le_of_lt lt))) with less | eq
    · exact .inl less
    · exact .inr ⟨eq, lt⟩
  · exact .inl (pre.network_lt he (hp.nested hq le))

/-- A host that is told from every other address is the last address of its network. -/
theorem eq_last_of_alone
    (alone : ∀ x, ¬h.Above x → ¬(ofAddress shl32 x).Above h.address → x = h.address) : h.address = h.last := by
  have filled : h.last = h.address ||| ~~~h.mask := by
    ext i hi
    simp only [last, network, BitVec.getElem_and, BitVec.getElem_or, BitVec.getElem_not]
    cases h.mask[i] <;> cases h.address[i] <;> rfl
  refine (alone h.last ?_ ?_).symm
  · rw [Above, last_and_mask]
    exact BitVec.lt_irrefl _
  · rw [Above, network, BitVec.and_comm]
    refine BitVec.not_lt.mpr ?_
    show h.address &&& _ ≤ h.last &&& _
    rw [filled]
    exact and_mask_or_le ..

theorem Before.address_lt (before : h.Before g) (hh : h.address = h.last) (hg : g.address = g.last)
    (nested : h.mask &&& g.mask = h.mask ∨ g.mask &&& h.mask = g.mask) : h.address.toNat < g.address.toNat := by
  obtain ⟨above, notAbove⟩ := before
  rcases nested with nested | nested
  · -- under the greater mask `h` is not the greater one, and outside of it `g` has all the bits
    have outside : g.address &&& ~~~g.mask = ~~~g.mask := by
      rw [hg]
      exact fill_outside BitVec.and_self _
    have le : h.address.toNat ≤ g.address.toNat := by
      have hparts := toNat_parts h.address g.mask
      have gparts := toNat_parts g.address g.mask
      have inside : (h.address &&& g.mask).toNat ≤ (g.address &&& g.mask).toNat := by
        rw [BitVec.and_comm g.address]
        exact BitVec.not_lt.mp notAbove
      have rest : (h.address &&& ~~~g.mask).toNat ≤ (~~~g.mask).toNat := by
        rw [BitVec.toNat_and]
        exact Nat.and_le_right
      rw [outside] at gparts
      omega
    refine Nat.lt_of_le_of_ne le fun eq => ?_
    rw [Above, ← BitVec.eq_of_toNat_eq eq, network, BitVec.and_comm] at above
    exact BitVec.lt_irrefl _ above
  · -- outside of the mask of `h` both have all the bits
    have hparts := toNat_parts h.address h.mask
    have gparts := toNat_parts g.address h.mask
    have houtside : h.address &&& ~~~h.mask = ~~~h.mask := by
      rw [hh]
      exact fill_outside BitVec.and_self _
    have goutside : g.address &&& ~~~h.mask = ~~~h.mask := by
      rw [hg]
      exact fill_outside nested _
    have inside : (h.address &&& h.mask).toNat < (g.address &&& h.mask).toNat := by
      rw [BitVec.and_comm h.address]
      exact above
    rw [houtside] at hparts
    rw [goutside] at gparts
    omega

end Rank

end Addrinfo

namespace NetworkACL

variable {E X : Set Addrinfo} {shl32 : Word} {acl : NetworkACL}

theorem Configured.ofPrefix {e : Addrinfo} (h : Configured shl32 e) : ∃ p, e.OfPrefix shl32 p := by
  obtain ⟨-, p, le, ge, mask⟩ := h
  exact ⟨p, le, ge, mask⟩

/-! ### Separated entries -/

/-- The entries of the set for the networks, and of the one for the hosts. -/
def ofKind (kind : Bool) (X : Set Addrinfo) : Set Addrinfo := {e | e ∈ X ∧ e.isNetwork = kind}

namespace Separated

theorem mono (sep : Separated shl32 E) (hX : X ⊆ E) : Separated shl32 X where
  networks := fun e he f hf => sep.networks e (hX he) f (hX hf)
  alone := fun h hh => sep.alone h (hX hh)
  hosts := fun h hh g hg => sep.hosts h (hX hh) g (hX hg)
  apart := fun e he h hh => sep.apart e (hX he) h (hX hh)

theorem precedes_trans (sep : Separated shl32 E) (configured : ∀ e ∈ E, Configured shl32 e) {e f g : Addrinfo}
    (he : e ∈ ofKind true E) (hf : f ∈ ofKind true E) (hg : g ∈ ofKind true E) (ef : e.Precedes f)
    (fg : f.Precedes g) : e.Precedes g := by
  obtain ⟨p, hp⟩ := (configured e he.1).ofPrefix
  obtain ⟨q, hq⟩ := (configured f hf.1).ofPrefix
  obtain ⟨r, hr⟩ := (configured g hg.1).ofPrefix
  have ranks := ef.rank he.2 hf.2 hp hq
  have ranks' := fg.rank hf.2 hg.2 hq hr
  have ne : e ≠ g := by
    rintro rfl
    have back := fg.rank hf.2 he.2 hq hp
    omega
  rcases sep.networks e he.1 g hg.1 he.2 hg.2 ne with eg | ge
  · exact eg
  · have back := ge.rank hg.2 he.2 hr hp
    omega

theorem networks_orders (sep : Separated shl32 E) (configured : ∀ e ∈ E, Configured shl32 e) :
    Orders Addrinfo.lt (ofKind true E) Addrinfo.Precedes where
  irrefl := Addrinfo.lt_self
  forward := fun pre => Addrinfo.lt_iff.mpr pre.above
  backward := fun pre => Addrinfo.lt_false_iff.mpr pre.notAbove
  total := fun he hf ne => sep.networks _ he.1 _ hf.1 he.2 hf.2 ne
  trans := sep.precedes_trans configured

theorem before_address (sep : Separated shl32 E) (configured : ∀ e ∈ E, Configured shl32 e) {h g : Addrinfo}
    (hh : h ∈ ofKind false E) (hg : g ∈ ofKind false E) (before : h.Before g) :
    h.address.toNat < g.address.toNat := by
  obtain ⟨p, hp⟩ := (configured h hh.1).ofPrefix
  obtain ⟨q, hq⟩ := (configured g hg.1).ofPrefix
  refine before.address_lt (Addrinfo.eq_last_of_alone (sep.alone h hh.1 hh.2))
    (Addrinfo.eq_last_of_alone (sep.alone g hg.1 hg.2)) ?_
  rcases Nat.le_total p q with le | le
  · exact .inl (hp.nested hq le)
  · exact .inr (hq.nested hp le)

theorem before_trans (sep : Separated shl32 E) (configured : ∀ e ∈ E, Configured shl32 e) {e f g : Addrinfo}
    (he : e ∈ ofKind false E) (hf : f ∈ ofKind false E) (hg : g ∈ ofKind false E) (ef : e.Before f)
    (fg : f.Before g) : e.Before g := by
  have lt := sep.before_address configured he hf ef
  have lt' := sep.before_address configured hf hg fg
  have ne : e ≠ g := by
    rintro rfl
    omega
  rcases sep.hosts e he.1 g hg.1 he.2 hg.2 ne with eg | ge
  · exact eg
  · have back := sep.before_address configured hg he ge
    omega

theorem hosts_orders (sep : Separated shl32 E) (configured : ∀ e ∈ E, Configured shl32 e) :
    Orders Addrinfo.lt (ofKind false E) Addrinfo.Before where
  irrefl := Addrinfo.lt_self
  forward := fun before => Addrinfo.lt_iff.mpr before.1
  backward := fun before => Addrinfo.lt_false_iff.mpr before.2
  total := fun hh hg ne => sep.hosts _ hh.1 _ hg.1 hh.2 hg.2 ne
  trans := sep.before_trans configured

end Separated

/-! ### The sets of the ACL -/

/-- The two sets have the entries of `X`. -/
structure Holds (acl : NetworkACL) (X : Set Addrinfo) : Prop where
  networks : Represents Addrinfo.Precedes acl.mExcludeNetworks (ofKind true X)
  hosts : Represents Addrinfo.Before acl.mExcludeAddresses (ofKind false X)

theorem new_holds (policy : NetworkACLPolicy) : (new policy).Holds ∅ := by
  have none : ∀ kind, ofKind kind ∅ = ∅ := fun kind => by simp [ofKind]
  refine ⟨?_, ?_⟩
  · rw [none]
    exact represents_nil _
  · rw [none]
    exact represents_nil _

theorem ofKind_subset (kind : Bool) (hX : X ⊆ E) : ofKind kind X ⊆ ofKind kind E := fun _ he => ⟨hX he.1, he.2⟩

theorem ofKind_insert {e : Addrinfo} {kind : Bool} (he : e.isNetwork = kind) :
    ofKind kind (insert e X) = insert e (ofKind kind X) := by
  ext a
  simp only [ofKind, Set.mem_insert_iff, Set.mem_ofPred_eq]
  constructor
  · rintro ⟨rfl | ha, kinds⟩
    · exact .inl rfl
    · exact .inr ⟨ha, kinds⟩
  · rintro (rfl | ha)
    · exact ⟨.inl rfl, he⟩
    · exact ⟨.inr ha.1, ha.2⟩

theorem ofKind_insert_other {e : Addrinfo} {kind : Bool} (he : e.isNetwork ≠ kind) :
    ofKind kind (insert e X) = ofKind kind X := by
  ext a
  refine ⟨fun ⟨mem, kinds⟩ => ⟨mem.resolve_left ?_, kinds⟩, fun ⟨mem, kinds⟩ => ⟨.inr mem, kinds⟩⟩
  rintro rfl
  exact he kinds

theorem ofKind_sdiff {e : Addrinfo} {kind : Bool} : ofKind kind (X \ {e}) = ofKind kind X \ {e} := by
  ext a
  exact ⟨fun ⟨⟨mem, ne⟩, kinds⟩ => ⟨⟨mem, kinds⟩, ne⟩, fun ⟨⟨mem, kinds⟩, ne⟩ => ⟨⟨mem, ne⟩, kinds⟩⟩

theorem ofKind_sdiff_other {e : Addrinfo} {kind : Bool} (he : e.isNetwork ≠ kind) :
    ofKind kind (X \ {e}) = ofKind kind X := by
  rw [ofKind_sdiff, Set.sdiff_singleton_eq_self]
  exact fun mem => he mem.2

theorem list_subset {c : Call} (hX : X ⊆ E) (hc : c.entry ∈ E) : c.list X ⊆ E := by
  cases c with
  | add e => exact Set.insert_subset hc hX
  | del e => exact fun _ ha => hX ha.1

section Run

variable (balancing : Balancing Addrinfo)

/-- One call does to the sets what it does to the list. -/
theorem call_holds (sep : Separated shl32 E) (configured : ∀ e ∈ E, Configured shl32 e) (holds : acl.Holds X)
    (hX : X ⊆ E) {c : Call} (hc : c.entry ∈ E) : (acl.call balancing c).Holds (c.list X) := by
  have networks := sep.networks_orders configured
  have hosts := sep.hosts_orders configured
  cases c with
  | add e =>
    by_cases kind : e.isNetwork = true
    · rw [call, add, if_pos kind]
      refine ⟨?_, ?_⟩
      · rw [Call.list, ofKind_insert kind]
        exact networks.emplace_represents balancing holds.networks (ofKind_subset _ hX) ⟨hc, kind⟩
      · rw [Call.list, ofKind_insert_other (by simp [kind])]
        exact holds.hosts
    · have kind' : e.isNetwork = false := Bool.eq_false_iff.mpr kind
      rw [call, add, if_neg kind]
      refine ⟨?_, ?_⟩
      · rw [Call.list, ofKind_insert_other kind]
        exact holds.networks
      · rw [Call.list, ofKind_insert kind']
        exact hosts.emplace_represents balancing holds.hosts (ofKind_subset _ hX) ⟨hc, kind'⟩
  | del e =>
    by_cases kind : e.isNetwork = true
    · rw [call, del, if_pos kind]
      refine ⟨?_, ?_⟩
      · rw [Call.list, ofKind_sdiff]
        exact networks.eraseKey_represents balancing holds.networks (ofKind_subset _ hX) ⟨hc, kind⟩
      · rw [Call.list, ofKind_sdiff_other (by simp [kind])]
        exact holds.hosts
    · have kind' : e.isNetwork = false := Bool.eq_false_iff.mpr kind
      rw [call, del, if_neg kind]
      refine ⟨?_, ?_⟩
      · rw [Call.list, ofKind_sdiff_other kind]
        exact holds.networks
      · rw [Call.list, ofKind_sdiff]
        exact hosts.eraseKey_represents balancing holds.hosts (ofKind_subset _ hX) ⟨hc, kind'⟩

theorem calls_hold {Allowed : Set (Set Addrinfo)} (sep : ∀ E ∈ Allowed, Separated shl32 E)
    (configured : ∀ E ∈ Allowed, ∀ e ∈ E, Configured shl32 e) (holds : acl.Holds X) (here : Separated shl32 X) {calls : List Call}
    (together : Together Allowed X calls) :
    (calls.foldl (call balancing) acl).Holds (calls.foldl Call.list X) ∧ Separated shl32 (calls.foldl Call.list X) := by
  induction calls generalizing acl X with
  | nil => exact ⟨holds, here⟩
  | cons c calls ih =>
    obtain ⟨allowed, together⟩ := together
    have inside : X ⊆ insert c.entry X := Set.subset_insert ..
    have mine : c.entry ∈ insert c.entry X := Set.mem_insert ..
    refine ih (call_holds balancing (sep _ allowed) (configured _ allowed) holds inside mine) ?_ together
    exact (sep _ allowed).mono (list_subset inside mine)

theorem together_of_subset {Allowed : Set (Set Addrinfo)} (lower : ∀ E ∈ Allowed, ∀ F ⊆ E, F ∈ Allowed) (allowed : E ∈ Allowed)
    (hX : X ⊆ E) {calls : List Call} (hcalls : ∀ c ∈ calls, c.entry ∈ E) : Together Allowed X calls := by
  induction calls generalizing X with
  | nil => trivial
  | cons c calls ih =>
    obtain ⟨hc, hcalls⟩ := List.forall_mem_cons.mp hcalls
    exact ⟨lower E allowed _ (Set.insert_subset hc hX), ih (list_subset hX hc) hcalls⟩

end Run

/-! ### A lookup -/

/-- A network that has the address is the one that is asked. -/
theorem lowerBound_covers {x : Word} (tmp : Addrinfo) (htmp : tmp.address = x) (holds : acl.Holds X)
    {e : Addrinfo} (he : e ∈ ofKind true X) (hx : e.Covers x) :
    ∃ f ∈ ofKind true X, f.Covers x ∧
      acl.mExcludeNetworks.inorder[acl.mExcludeNetworks.lowerBound Addrinfo.lt tmp]? = some f := by
  cases found : acl.mExcludeNetworks.inorder.find? (fun e => decide (e.Covers x)) with
  | none => exact absurd hx (by simpa using List.find?_eq_none.mp found e ((holds.networks.mem_iff e).mpr he))
  | some f =>
    -- the first one that has the address: those before it are below the address, those behind it are not
    obtain ⟨hf, us, vs, ht, hus⟩ := List.find?_eq_some_iff_append.mp found
    have hf : f.Covers x := of_decide_eq_true hf
    have sorted := holds.networks.sorted
    rw [ht, List.pairwise_append, List.pairwise_cons] at sorted
    obtain ⟨-, ⟨hvs, -⟩, husf⟩ := sorted
    have bound : acl.mExcludeNetworks.lowerBound Addrinfo.lt tmp = us.length := by
      refine descend_split ht (fun u hu => ?_) (List.forall_mem_cons.mpr ⟨?_, fun v hv => ?_⟩)
      · rw [Addrinfo.lt_iff, htmp]
        by_contra notAbove
        have covers := (husf u hu f List.mem_cons_self).behind x hf notAbove
        simpa [covers] using hus u hu
      · rw [Addrinfo.lt_false_iff, htmp]
        exact hf.not_above
      · rw [Addrinfo.lt_false_iff, htmp]
        exact (hvs v hv).before x hf
    refine ⟨f, (holds.networks.mem_iff f).mp (by simp [ht]), hf, ?_⟩
    rw [bound, ht, List.getElem?_append_right (Nat.le_refl _), Nat.sub_self, List.getElem?_cons_zero]

/-- Where all the networks are below the address, none is asked. -/
theorem lowerBound_end (tmp : Addrinfo) (holds : acl.Holds X)
    (above : ∀ e ∈ ofKind true X, e.Above tmp.address) :
    acl.mExcludeNetworks.inorder[acl.mExcludeNetworks.lowerBound Addrinfo.lt tmp]? = none := by
  have bound : acl.mExcludeNetworks.lowerBound Addrinfo.lt tmp = acl.mExcludeNetworks.inorder.length :=
    descend_split (List.append_nil _).symm
      (fun u hu => Addrinfo.lt_iff.mpr (above u ((holds.networks.mem_iff u).mp hu))) (by simp)
  rw [bound]
  exact List.getElem?_eq_none (Nat.le_refl _)

/-- A host is found under its address, and no other address finds one. -/
theorem find_host (sep : Separated shl32 X) (holds : acl.Holds X) (x : Word) :
    (acl.mExcludeAddresses.find Addrinfo.lt (.ofAddress shl32 x)).isSome = true ↔
      ∃ h ∈ ofKind false X, x = h.address := by
  have self : ∀ h : Addrinfo, x = h.address → (Addrinfo.ofAddress shl32 x).lt h = false := by
    rintro h rfl
    rw [Addrinfo.lt_false_iff]
    exact (Addrinfo.covers_self (.ofAddress shl32 h.address)).not_above
  constructor
  · intro found
    rw [find] at found
    split at found
    · exact absurd found (by simp)
    next h hget =>
      have mem := (holds.hosts.mem_iff h).mp (List.mem_of_getElem? hget)
      split at found
      · exact absurd found (by simp)
      next notLt =>
        refine ⟨h, mem, sep.alone h mem.1 mem.2 x ?_ ?_⟩
        · exact Addrinfo.lt_false_iff.mp (not_of_getElem_descend (p := (Addrinfo.lt · (.ofAddress shl32 x))) hget)
        · exact Addrinfo.lt_false_iff.mp (Bool.eq_false_iff.mpr notLt)
  · rintro ⟨h, mem, eq⟩
    obtain ⟨us, vs, ht⟩ := List.append_of_mem ((holds.hosts.mem_iff h).mpr mem)
    have sorted := holds.hosts.sorted
    rw [ht, List.pairwise_append, List.pairwise_cons] at sorted
    obtain ⟨-, ⟨hvs, -⟩, hush⟩ := sorted
    have bound : acl.mExcludeAddresses.lowerBound Addrinfo.lt (.ofAddress shl32 x) = us.length := by
      refine descend_split ht (fun u hu => ?_) (List.forall_mem_cons.mpr ⟨?_, fun v hv => ?_⟩)
      · rw [Addrinfo.lt_iff]
        exact eq ▸ (hush u hu h List.mem_cons_self).1
      · rw [Addrinfo.lt_false_iff]
        exact eq ▸ h.covers_self.not_above
      · rw [Addrinfo.lt_false_iff]
        exact eq ▸ (hvs v hv).2
    rw [find, bound, ht, List.getElem?_append_right (Nat.le_refl _), Nat.sub_self, List.getElem?_cons_zero]
    show (if _ then _ else _ : Option Nat).isSome = true
    rw [self h eq, if_neg (by simp)]
    rfl

/-- A lookup in sets of separated entries. -/
theorem matchAddress_of_holds (sep : Separated shl32 X) (holds : acl.Holds X) (x : Word) :
    acl.matchAddress shl32 x = true ↔ ∃ e ∈ X, e.Covers x := by
  rw [matchAddress, matchInfo]
  by_cases network : ∃ e ∈ ofKind true X, e.Covers x
  · obtain ⟨e, he, hx⟩ := network
    obtain ⟨f, hf, hfx, asked⟩ := lowerBound_covers (.ofAddress shl32 x) rfl holds he hx
    rw [asked]
    show f.within _ = true ↔ _
    rw [Addrinfo.within_network hf.2, decide_eq_true_iff]
    exact ⟨fun _ => ⟨f, hf.1, hfx⟩, fun _ => hfx⟩
  -- no network has the address: it must be a host's
  have host : (∃ e ∈ X, e.Covers x) ↔ ∃ h ∈ ofKind false X, x = h.address := by
    constructor
    · rintro ⟨e, he, hx⟩
      cases kind : e.isNetwork with
      | true => exact absurd ⟨e, ⟨he, kind⟩, hx⟩ network
      | false => exact ⟨e, ⟨he, kind⟩, (Addrinfo.covers_host kind).mp hx⟩
    · rintro ⟨h, hh, eq⟩
      exact ⟨h, hh.1, (Addrinfo.covers_host hh.2).mpr eq⟩
  rw [host]
  split
  next it asked =>
    have mem := (holds.networks.mem_iff it).mp (List.mem_of_getElem? asked)
    rw [Addrinfo.within_network mem.2, decide_eq_true_iff]
    refine ⟨fun hx => absurd ⟨it, mem, hx⟩ network, fun ⟨h, hh, eq⟩ => ?_⟩
    -- a host is above every network that does not have it
    have none := lowerBound_end (.ofAddress shl32 x) holds fun e he =>
      (eq ▸ sep.apart e he.1 h hh.1 he.2 hh.2).resolve_right fun hx => network ⟨e, he, hx⟩
    rw [none] at asked
    exact absurd asked (by simp)
  next => exact find_host sep holds x

/-! ### What entries that are not separated do -/

/-- The ACL means what its list says, whatever is called with the entries of `E`. -/
def MeansItsList (balancing : Balancing Addrinfo) (shl32 : Word) (policy : NetworkACLPolicy) (E : Set Addrinfo) :
    Prop :=
  ∀ calls : List Call, (∀ c ∈ calls, c.entry ∈ E) →
    ∀ x, (after balancing policy calls).matchAddress shl32 x = true ↔ ∃ e ∈ listed calls, e.Covers x

section Necessary

variable {balancing : Balancing Addrinfo} {policy : NetworkACLPolicy} {e f h g : Addrinfo} {x : Word}

/-- An ACL that has entries of one kind. -/
def ofTree (policy : NetworkACLPolicy) (kind : Bool) (t : BinaryTree Addrinfo) : NetworkACL :=
  if kind then ⟨policy, t, nil⟩ else ⟨policy, nil, t⟩

section Trees

variable (policy) {kind : Bool} (he : e.isNetwork = kind)
include he

theorem after_one : after balancing policy [.add e] = ofTree policy kind (node e nil nil) := by
  cases kind <;> simp [after, call, add, he, new, emplace_nil, ofTree]

variable (hf : f.isNetwork = kind)
include hf

theorem after_two :
    after balancing policy [.add e, .add f] =
      ofTree policy kind ((node e nil nil).emplace balancing Addrinfo.lt f) := by
  cases kind <;> simp [after, call, add, he, hf, new, emplace_nil, ofTree]

theorem after_deleted :
    after balancing policy [.add e, .add f, .del e] =
      ofTree policy kind (((node e nil nil).emplace balancing Addrinfo.lt f).eraseKey balancing Addrinfo.lt e) := by
  cases kind <;> simp [after, call, add, del, he, hf, new, emplace_nil, ofTree]

end Trees

theorem match_nil (policy : NetworkACLPolicy) (kind : Bool) (x : Word) :
    (ofTree policy kind nil).matchAddress shl32 x = false := by
  cases kind <;> rfl

/-- The walk goes past the last element. -/
theorem match_past (policy : NetworkACLPolicy) (kind : Bool) {l : BinaryTree Addrinfo} (hx : e.Above x) :
    (ofTree policy kind (node e l nil)).matchAddress shl32 x = false := by
  have lt : e.lt (.ofAddress shl32 x) = true := Addrinfo.lt_iff.mpr hx
  have past : (node e l nil).inorder[(node e l nil).lowerBound Addrinfo.lt (.ofAddress shl32 x)]? = none :=
    List.getElem?_eq_none (by simp [lowerBound, descend, lt])
  cases kind with
  | true =>
    show matchInfo ⟨policy, node e l nil, nil⟩ _ = false
    rw [matchInfo, past]
    rfl
  | false =>
    show ((node e l nil).find Addrinfo.lt _).isSome = false
    rw [find, past]
    rfl

/-- The network at the root is asked when nothing is before it. -/
theorem match_first (policy : NetworkACLPolicy) (r hosts : BinaryTree Addrinfo) (he : e.isNetwork = true)
    (hx : ¬e.Above x) : (NetworkACL.mk policy (node e nil r) hosts).matchAddress shl32 x = decide (e.Covers x) := by
  have notLt : e.lt (.ofAddress shl32 x) = false := Addrinfo.lt_false_iff.mpr hx
  have asked : (node e nil r).inorder[(node e nil r).lowerBound Addrinfo.lt (.ofAddress shl32 x)]? = some e := by
    simp [lowerBound, descend, inorder, notLt]
  rw [matchAddress, matchInfo, asked]
  exact Addrinfo.within_network he

namespace MeansItsList

variable (means : MeansItsList balancing shl32 policy E)
include means

theorem one (he : e ∈ E) (x : Word) :
    (after balancing policy [.add e]).matchAddress shl32 x = true ↔ e.Covers x := by
  rw [means [.add e] (by simpa [Call.entry] using he) x]
  simp [listed, Call.list]

theorem two (he : e ∈ E) (hf : f ∈ E) (x : Word) :
    (after balancing policy [.add e, .add f]).matchAddress shl32 x = true ↔ e.Covers x ∨ f.Covers x := by
  rw [means [.add e, .add f] (by simpa [Call.entry] using ⟨he, hf⟩) x]
  simp [listed, Call.list, or_comm]

theorem deleted (he : e ∈ E) (hf : f ∈ E) (ne : e ≠ f) :
    (after balancing policy [.add e, .add f, .del e]).matchAddress shl32 f.address = true := by
  rw [means [.add e, .add f, .del e] (by simpa [Call.entry] using ⟨he, hf, he⟩)]
  exact ⟨f, ⟨.inl rfl, Ne.symm ne⟩, f.covers_self⟩

/-- Two entries of one kind are told from each other, in one direction only. -/
theorem comparable (he : e ∈ E) (hf : f ∈ E) (kinds : e.isNetwork = f.isNetwork) (ne : e ≠ f) :
    e.Before f ∨ f.Before e := by
  cases ef : e.lt f <;> cases fe : f.lt e
  · -- the second is not inserted
    have found := means.deleted he hf ne
    rw [after_deleted policy kinds rfl, emplace_equivalent balancing fe ef, eraseKey_single balancing e.lt_self,
      match_nil] at found
    exact absurd found (by simp)
  · exact .inr ⟨Addrinfo.lt_iff.mp fe, Addrinfo.lt_false_iff.mp ef⟩
  · exact .inl ⟨Addrinfo.lt_iff.mp ef, Addrinfo.lt_false_iff.mp fe⟩
  · -- the second is not found
    have found := (means.two he hf f.address).mpr (.inr f.covers_self)
    rw [after_two policy kinds rfl, emplace_before balancing fe, match_past _ _ (Addrinfo.lt_iff.mp ef)] at found
    exact absurd found (by simp)

theorem precedes (he : e ∈ E) (hf : f ∈ E) (hen : e.isNetwork = true) (hfn : f.isNetwork = true)
    (before : e.Before f) : e.Precedes f where
  above := before.1
  notAbove := before.2
  before := fun x hx above => by
    have found := (means.two hf he x).mpr (.inr hx)
    rw [after_two policy hfn hen, emplace_before balancing (Addrinfo.lt_iff.mpr before.1), match_past _ _ above] at found
    exact absurd found (by simp)
  behind := fun x hx notAbove => by
    have found := (means.two he hf x).mpr (.inr hx)
    rw [after_two policy hen hfn,
      emplace_behind balancing (Addrinfo.lt_false_iff.mpr before.2) (Addrinfo.lt_iff.mpr before.1)] at found
    exact of_decide_eq_true ((match_first policy _ _ hen notAbove).symm.trans found)

theorem alone (hh : h ∈ E) (kind : h.isNetwork = false) (notAbove : ¬h.Above x)
    (notBelow : ¬(Addrinfo.ofAddress shl32 x).Above h.address) : x = h.address := by
  have notLt : h.lt (.ofAddress shl32 x) = false := Addrinfo.lt_false_iff.mpr notAbove
  have notLt' : (Addrinfo.ofAddress shl32 x).lt h = false := Addrinfo.lt_false_iff.mpr notBelow
  refine (Addrinfo.covers_host kind).mp ((means.one hh x).mp ?_)
  rw [after_one policy kind]
  show ((node h nil nil).find Addrinfo.lt _).isSome = true
  simp [find, lowerBound, descend, inorder, notLt, notLt']

theorem apart (he : e ∈ E) (hh : h ∈ E) (hen : e.isNetwork = true) (hhn : h.isNetwork = false) :
    e.Above h.address ∨ e.Covers h.address := by
  refine or_iff_not_imp_left.mpr fun notAbove => ?_
  have found := (means.two he hh h.address).mpr (.inr h.covers_self)
  have sets : after balancing policy [.add e, .add h] = ⟨policy, node e nil nil, node h nil nil⟩ := by
    simp [after, call, add, hen, hhn, new, emplace_nil]
  rw [sets] at found
  exact of_decide_eq_true ((match_first policy _ _ hen notAbove).symm.trans found)

theorem separated : Separated shl32 E where
  networks := fun e he f hf hen hfn ne => by
    rcases means.comparable he hf (hen.trans hfn.symm) ne with ef | fe
    · exact .inl (means.precedes he hf hen hfn ef)
    · exact .inr (means.precedes hf he hfn hen fe)
  alone := fun h hh kind x => means.alone hh kind
  hosts := fun h hh g hg hhn hgn ne => means.comparable hh hg (hhn.trans hgn.symm) ne
  apart := fun e he h hh => means.apart he hh

end MeansItsList

end Necessary

/-- For entries of the configuration, the ACL means what its list says, in every order of the calls, exactly when the
entries that may be in the list together, with that of the next call, are separated. -/
theorem means_its_list_iff (balancing : Balancing Addrinfo) (shl32 : Word) (policy : NetworkACLPolicy)
    (Allowed : Set (Set Addrinfo)) (lower : ∀ E ∈ Allowed, ∀ F ⊆ E, F ∈ Allowed)
    (configured : ∀ E ∈ Allowed, ∀ e ∈ E, Configured shl32 e) :
    (∀ calls : List Call, Together Allowed ∅ calls →
      ∀ x, (after balancing policy calls).matchAddress shl32 x = true ↔ ∃ e ∈ listed calls, e.Covers x) ↔
      ∀ E ∈ Allowed, Separated shl32 E := by
  constructor
  · intro means E allowed
    have inside : MeansItsList balancing shl32 policy E := fun calls hcalls =>
      means calls (together_of_subset lower allowed (Set.empty_subset E) hcalls)
    exact inside.separated
  · intro sep calls together x
    have none : Separated shl32 ∅ := ⟨nofun, nofun, nofun, nofun⟩
    obtain ⟨holds, here⟩ := calls_hold balancing sep configured (new_holds policy) none together
    exact matchAddress_of_holds here holds x

/-- The networks `10.0.0.0/8` and `11.0.0.0/8`. -/
def network10 : Addrinfo := ⟨0x0000000A#32, 0x000000FF#32⟩

def network11 : Addrinfo := ⟨0x0000000B#32, 0x000000FF#32⟩

theorem network10_precedes : network10.Precedes network11 where
  above := by decide
  notAbove := by decide
  before := fun x hx => by
    have agrees : x &&& 0x000000FF#32 = network10.network := (Addrinfo.covers_network (by decide)).mp hx
    show ¬network11.network < x &&& 0x000000FF#32
    rw [agrees]
    decide
  behind := fun x hx notAbove => by
    have agrees : x &&& 0x000000FF#32 = network11.network := (Addrinfo.covers_network (by decide)).mp hx
    refine absurd (show network10.network < x &&& 0x000000FF#32 from ?_) notAbove
    rw [agrees]
    decide

theorem networks_separated : Separated 1 {network10, network11} where
  networks := by
    rintro e (rfl | rfl) f (rfl | rfl) - - ne
    · exact absurd rfl ne
    · exact .inl network10_precedes
    · exact .inr network10_precedes
    · exact absurd rfl ne
  alone := by
    rintro h (rfl | rfl) kind
    · exact absurd kind (by decide)
    · exact absurd kind (by decide)
  hosts := by
    rintro h (rfl | rfl) g - kind
    · exact absurd kind (by decide)
    · exact absurd kind (by decide)
  apart := by
    rintro e - h (rfl | rfl) - kind
    · exact absurd kind (by decide)
    · exact absurd kind (by decide)

theorem means_its_list_two :
    Separated 1 {network10, network11} ∧
    ∀ calls : List Call, Together {E | E ⊆ {network10, network11}} ∅ calls →
      ∀ x, (after .none .deny calls).matchAddress 1 x = true ↔ ∃ e ∈ listed calls, e.Covers x := by
  refine ⟨networks_separated, (means_its_list_iff .none 1 .deny _ (fun E inside F sub => sub.trans inside) ?_).mpr
    fun E inside => networks_separated.mono inside⟩
  intro E inside e he
  obtain rfl | rfl := inside he
  · exact ⟨⟨"10.0.0.0/8".toList, by decide +kernel⟩, 8, by decide, by decide, by decide⟩
  · exact ⟨⟨"11.0.0.0/8".toList, by decide +kernel⟩, 8, by decide, by decide, by decide⟩

/-- The host `10.0.0.5` without a prefix, and the network `192.168.0.0/16`. -/
def host10 : Addrinfo := ⟨0x0500000A#32, 0x000000FF#32⟩

def network192 : Addrinfo := ⟨0x0000A8C0#32, 0x0000FFFF#32⟩

/-- A host lets its whole class A network match (here `10.9.9.9`). A network is lost behind another one
that was added before it (here for `10.255.1.1`). -/
theorem means_its_list_counterexample :
    (Ipcalc.parse 1 "10.0.0.5".toList = .ok host10 ∧
      (after .none .deny [.add host10]).matchAddress 1 0x0909090A#32 = true ∧
      ¬∃ e ∈ listed [.add host10], e.Covers 0x0909090A#32) ∧
    (Ipcalc.parse 1 "192.168.0.0/16".toList = .ok network192 ∧
      (after .none .deny [.add network192, .add network10]).matchAddress 1 0x0101FF0A#32 = false ∧
      (after .none .deny [.add network10, .add network192]).matchAddress 1 0x0101FF0A#32 = true ∧
      ∃ e ∈ listed [.add network192, .add network10], e.Covers 0x0101FF0A#32) := by
  refine ⟨⟨by decide +kernel, by decide +kernel, ?_⟩, by decide +kernel, by decide +kernel, by decide +kernel, ?_⟩
  · rintro ⟨e, he, hx⟩
    obtain rfl : e = host10 := by simpa [listed, Call.list] using he
    exact absurd hx (by decide)
  · exact ⟨network10, .inl rfl, by decide⟩

end NetworkACL
end LAppS
