import Bitmark.Consensus.MinedChain

/-!
# Activation of the fork

`onFork` counts the base versions of the last hundred blocks, while the rule that protects the
fork (`src/main.cpp:2133`) compares the whole version word with 4. As long as no word passes the
one and fails the other, a chain on the fork stays there.
-/

namespace Bitmark

/-- A version word that the rule of the fork lets through although its base version is too low:
bits above the low byte make the word large. -/
def slipsThrough (nVersion : Version) : Bool :=
  4 ≤ nVersion.toInt && getBlockVersion nVersion < 4

theorem onFork_cons_iff (b : CBlockIndex) (p : ChainIndex) :
    onFork (b :: p) = true ↔ 200 ≤ p.length ∧
      75 ≤ (p.take 100).countP fun e ↦ decide (4 ≤ getBlockVersion e.nVersion) := by
  rw [onFork, Bool.and_eq_true, decide_eq_true_eq, isSuperMajority_iff]
  rfl

/-- A full window keeps its count when an element that counts enters it. -/
theorem countP_take_le_cons {α : Type} (f : α → Bool) {x : α} (hx : f x = true) (l : List α)
    (n : Nat) : (l.take n).countP f ≤ ((x :: l).take n).countP f := by
  cases n with
  | zero => simp
  | succ n =>
    have hlast : (l.take (n + 1)).countP f ≤ (l.take n).countP f + 1 := by
      rw [List.take_add_one, List.countP_append]
      have hone : (l[n]?.toList).countP f ≤ 1 := by
        cases l[n]? with
        | none => simp
        | some y => exact List.countP_le_length
      omega
    rw [List.take_succ_cons, List.countP_cons_of_pos hx]
    exact hlast

/-- The block after a block of base version 4 or more on the fork is on the fork. -/
theorem onFork_cons {b c : CBlockIndex} {p : ChainIndex} (hfork : onFork (b :: p) = true)
    (hversion : 4 ≤ getBlockVersion b.nVersion) : onFork (c :: b :: p) = true := by
  rw [onFork_cons_iff] at hfork ⊢
  refine ⟨?_, hfork.2.trans (countP_take_le_cons _ (by simpa using hversion) p 100)⟩
  rw [List.length_cons]
  omega

/-- Every block passes the rule of `ConnectBlock` for version words on the fork,
`src/main.cpp:2142`. -/
def PassesForkRule (p : ChainIndex) : Prop :=
  ∀ b rest, b :: rest <:+ p → onFork (b :: rest) = true → 4 ≤ b.nVersion.toInt

/-- No version word on the fork slips through. -/
def NoneSlipsThrough (p : ChainIndex) : Prop :=
  ∀ b rest, b :: rest <:+ p → onFork (b :: rest) = true → slipsThrough b.nVersion = false

theorem forkRule_of_versionRules {b : CBlockIndex} {pprev : ChainIndex}
    (h : versionRules b.nVersion (b :: pprev) = true) (hfork : onFork (b :: pprev) = true) :
    4 ≤ b.nVersion.toInt := by
  rw [versionRules, hfork, Bool.true_and, Bool.and_eq_true, Bool.not_eq_true',
    decide_eq_false_iff_not] at h
  omega

theorem AcceptedChain.passesForkRule {H : Hashes} {params : CChainParams} {p : ChainIndex}
    {view : CCoinsViewCache} {issued : List Int} (h : AcceptedChain H params p view issued) :
    PassesForkRule p := by
  intro b rest hsuf hfork
  obtain ⟨view', issued', hacc⟩ := h.suffix hsuf (by simp)
  rcases hacc.cases_cons with ⟨rfl, -⟩ | ⟨view₀, issued₀, net, -, -, hext⟩
  · cases hfork
  · exact forkRule_of_versionRules hext.rules hfork

/-- A word of 4 or more that does not slip through has base version 4 or more. -/
theorem PassesForkRule.getBlockVersion {p : ChainIndex} (h : PassesForkRule p)
    (hslip : NoneSlipsThrough p) {b : CBlockIndex} {rest : ChainIndex} (hsuf : b :: rest <:+ p)
    (hon : onFork (b :: rest) = true) : 4 ≤ getBlockVersion b.nVersion := by
  have hword := h b rest hsuf hon
  have hno := hslip b rest hsuf hon
  rw [slipsThrough, Bool.and_eq_false_iff, decide_eq_false_iff_not, decide_eq_false_iff_not] at hno
  omega

/-- From a block on the fork on, block by block. -/
theorem PassesForkRule.staysOnFork {p : ChainIndex} (h : PassesForkRule p)
    (hslip : NoneSlipsThrough p) {q r : ChainIndex} (hfork : onFork q = true) (hqr : q <:+ r)
    (hr : r <:+ p) : onFork r = true := by
  induction r with
  | nil =>
    rw [List.suffix_nil.mp hqr] at hfork
    cases hfork
  | cons c rest ih =>
    rcases List.suffix_cons_iff.mp hqr with rfl | hqr
    · exact hfork
    · have hrest := (List.suffix_cons c rest).trans hr
      have hon := ih hqr hrest
      cases rest with
      | nil => cases hon
      | cons b rest => exact onFork_cons hon (h.getBlockVersion hslip hrest hon)

/-- The fork is irrevocable where no version word on it slips through: from a block on the fork
on, every block is on the fork and has base version 4 or more. -/
theorem onFork_irrevocable {p : ChainIndex} (h : PassesForkRule p) (hslip : NoneSlipsThrough p)
    {q r : ChainIndex} (hfork : onFork q = true) (hqr : q <:+ r) (hr : r <:+ p) :
    onFork r = true ∧ ∃ b rest, r = b :: rest ∧ 4 ≤ getBlockVersion b.nVersion := by
  have hon := h.staysOnFork hslip hfork hqr hr
  cases r with
  | nil => cases hon
  | cons b rest => exact ⟨hon, b, rest, rfl, h.getBlockVersion hslip hr hon⟩

/-! ### Two chains -/

/-- Blocks of version 4 only. -/
def stayingOnFork (h : Nat) : Mined where
  nVersion := 4
  nTime := BitVec.ofNat 32 (h + 1)

theorem plan_stayingOnFork {n : Nat} (hn : n + 1 < 2 ^ 32) :
    Plan minerParams 0x207fffff stayingOnFork n := by
  refine plan_of_version4 (fun _ ↦ rfl) (fun _ ↦ rfl) fun h hh ↦ ?_
  simp only [stayingOnFork, BitVec.toNat_ofNat]
  omega

/-- `onFork_irrevocable` for the first two blocks on the fork of such a chain. -/
theorem onFork_irrevocable_version4 : ∃ c q view issued,
    AcceptedChain minerHashes minerParams (c :: q) view issued ∧ onFork q = true ∧
      onFork (c :: q) = true ∧ ∃ b rest, c :: q = b :: rest ∧ 4 ≤ getBlockVersion b.nVersion := by
  have hplan : Plan minerParams 0x207fffff stayingOnFork 201 := plan_stayingOnFork (by decide)
  obtain ⟨p, view, issued, hp⟩ := hplan.exists_planned rfl (by decide)
  obtain ⟨c, q, rfl⟩ := List.exists_cons_of_length_eq_add_one hp.length
  have hfork : onFork q = true := by
    rw [← headerOnly.onFork_apply]
    exact (congrArg (onFork ∘ List.tail) hp.headers).trans (by decide +kernel)
  have hversions : ∀ e ∈ planned 0x207fffff stayingOnFork 202, slipsThrough e.nVersion = false := by
    decide +kernel
  refine ⟨c, q, view, issued, hp.accepted, hfork, onFork_irrevocable
    hp.accepted.passesForkRule (fun b rest hsuf _ ↦ ?_) hfork (List.suffix_cons c q) List.suffix_rfl⟩
  have hmem := List.mem_map_of_mem (f := headerOnly.toFun) (hsuf.subset List.mem_cons_self)
  exact hversions (headerOnly.toFun b) (hp.headers ▸ hmem)

/-- Two hundred version 4 blocks, 26 blocks of base version 1 with the bits of X17, and a block
of version 4. -/
def leavingFork (h : Nat) : Mined where
  nVersion := if 200 ≤ h ∧ h < 226 then 0x0801 else 4
  nTime := BitVec.ofNat 32 (h + 1)

/-- The fork is revoked: the last two blocks of an accepted chain are one on the fork, of base
version 1, and one that is not on it. -/
theorem onFork_revoked : ∃ c b rest view issued,
    AcceptedChain minerHashes minerParams (c :: b :: rest) view issued ∧
      onFork (b :: rest) = true ∧ getBlockVersion b.nVersion = 1 ∧
      onFork (c :: b :: rest) = false := by
  have hplan : Plan minerParams 0x207fffff leavingFork 226 := by
    refine ⟨?_, ?_, fun h _ ↦ getNextWorkRequired_minerParams _ _, ?_, ?_, ?_⟩ <;> decide +kernel
  obtain ⟨p, view, issued, hp⟩ := hplan.exists_planned rfl (by decide)
  obtain ⟨c, q, rfl⟩ := List.exists_cons_of_length_eq_add_one hp.length
  obtain ⟨b, rest, rfl⟩ := List.exists_cons_of_length_eq_add_one
    (Nat.succ.inj (hp.length : q.length + 1 = 225 + 1 + 1))
  have htail := congrArg List.tail hp.headers
  have hversion : b.nVersion = 0x0801 :=
    Option.some.inj (congrArg (fun p : ChainIndex ↦ p.head?.map CBlockIndex.nVersion) htail)
  refine ⟨c, b, rest, view, issued, hp.accepted, ?_, by rw [hversion]; rfl, ?_⟩
  · rw [← headerOnly.onFork_apply]
    exact (congrArg onFork htail).trans (by decide +kernel)
  · rw [← headerOnly.onFork_apply, hp.headers]
    decide +kernel

end Bitmark
