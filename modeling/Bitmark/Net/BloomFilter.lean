import Bitmark.Lib.BitArray
import Bitmark.Primitives.Transaction
import Bitmark.Script.Standard

/-!
# Bloom filters

`CBloomFilter` (`src/bloom.h`, `src/bloom.cpp`), which selects the transactions a light client wants.
Every operation that would reduce modulo zero or index outside `vData` fails.
-/

namespace Bitmark

/-! ### MurmurHash3, `src/hash.cpp:60` -/

/-- The scrambling of a block. -/
def murmurScramble (k1 : BitVec 32) : BitVec 32 :=
  (k1 * 0xcc9e2d51).rotateLeft 15 * 0x1b873593

/-- The body on whole blocks of four bytes, and the tail of up to three. -/
def murmurBody (h1 : BitVec 32) : Bytes → BitVec 32
  | a :: b :: c :: d :: rest =>
    let h1 := h1 ^^^ murmurScramble (BitVec.ofNat 32 (leNat [a, b, c, d]))
    murmurBody (h1.rotateLeft 13 * 5 + 0xe6546b64) rest
  | [] => h1
  | tail => h1 ^^^ murmurScramble (BitVec.ofNat 32 (leNat tail))

/-- `MurmurHash3`. -/
def murmurHash3 (nHashSeed : BitVec 32) (vDataToHash : Bytes) : BitVec 32 :=
  let h1 := murmurBody nHashSeed vDataToHash ^^^ BitVec.ofNat 32 vDataToHash.length
  let h1 := (h1 ^^^ (h1 >>> 16)) * 0x85ebca6b
  let h1 := (h1 ^^^ (h1 >>> 13)) * 0xc2b2ae35
  h1 ^^^ (h1 >>> 16)

example : murmurHash3 0 [0x00, 0x11, 0x22, 0x33, 0x44, 0x55, 0x66, 0x77, 0x88] = 0xb4698def := by
  decide

/-! ### The filter -/

def bloomUpdateAll : UInt8 := 1
def bloomUpdateP2PubkeyOnly : UInt8 := 2
def bloomUpdateMask : UInt8 := 3

/-- `MAX_BLOOM_FILTER_SIZE` and `MAX_HASH_FUNCS`. -/
def maxBloomFilterSize : Nat := 36000

@[inherit_doc maxBloomFilterSize]
def maxHashFuncs : Nat := 50

/-- `CBloomFilter`. -/
structure CBloomFilter where
  vData : Bytes
  isFull : Bool
  isEmpty : Bool
  nHashFuncs : BitVec 32
  nTweak : BitVec 32
  nFlags : UInt8
deriving DecidableEq, Repr

namespace CBloomFilter

/-- `Hash`. -/
def hash (f : CBloomFilter) (nHashNum : Nat) (vDataToHash : Bytes) : Option Nat :=
  if f.vData.length * 8 = 0 then none
  else
    some ((murmurHash3 (BitVec.ofNat 32 nHashNum * 0xFBA4C795 + f.nTweak) vDataToHash).toNat %
      (f.vData.length * 8))

/-- A round of `insert`. -/
def insertBit (f : CBloomFilter) (vKey : Bytes) (i : Nat) : Option CBloomFilter := do
  let nIndex ← f.hash i vKey
  let vData ← BitArray.setBit f.vData nIndex
  some { f with vData }

/-- `insert`. -/
def insert (f : CBloomFilter) (vKey : Bytes) : Option CBloomFilter :=
  if f.isFull then some f
  else do
    let f ← (List.range f.nHashFuncs.toNat).foldlM (fun f i ↦ f.insertBit vKey i) f
    some { f with isEmpty := false }

/-- The loop of `contains`. -/
def containsBits (f : CBloomFilter) (vKey : Bytes) : List Nat → Option Bool
  | [] => some true
  | i :: is => do
    let nIndex ← f.hash i vKey
    let bit ← BitArray.testBit f.vData nIndex
    if !bit then some false else f.containsBits vKey is

/-- `contains`. -/
def contains (f : CBloomFilter) (vKey : Bytes) : Option Bool :=
  if f.isFull then some true
  else if f.isEmpty then some false
  else f.containsBits vKey (List.range f.nHashFuncs.toNat)

/-- `IsWithinSizeConstraints`. -/
def isWithinSizeConstraints (f : CBloomFilter) : Bool :=
  f.vData.length ≤ maxBloomFilterSize && f.nHashFuncs.toNat ≤ maxHashFuncs

/-- `UpdateEmptyFull`. -/
def updateEmptyFull (f : CBloomFilter) : CBloomFilter :=
  { f with isFull := f.vData.all (· = 0xff), isEmpty := f.vData.all (· = 0) }

/-- `data.size() != 0 && contains(data)`. -/
def containsData (f : CBloomFilter) (data : Bytes) : Option Bool :=
  if data.length ≠ 0 then f.contains data else some false

/-- The scan of a script for a data element in the filter. -/
def matchesData (f : CBloomFilter) : List ScriptOp → Option Bool
  | [] => some false
  | op :: ops => do
    let found ← f.containsData op.data
    if found then some true else f.matchesData ops

/-- Whether a matched output is added to the filter. -/
def updatesFor (f : CBloomFilter) (scriptPubKey : Bytes) : Bool :=
  if f.nFlags &&& bloomUpdateMask = bloomUpdateAll then true
  else if f.nFlags &&& bloomUpdateMask = bloomUpdateP2PubkeyOnly then
    match solver scriptPubKey with
    | some (type, _) => type = .pubkey || type = .multisig
    | none => false
  else false

/-- The outpoint of an output. -/
def outpointData (hash : Uint256) (i : Nat) : Bytes :=
  COutPoint.serialize ⟨hash, BitVec.ofNat 32 i⟩

/-- The loop of `IsRelevantAndUpdate` over the outputs: whether one matched, the filter then, and
the outpoints that were inserted. -/
def matchOutputs (f : CBloomFilter) (hash : Uint256) :
    Nat → List CTxOut → Option (Bool × CBloomFilter × List Bytes)
  | _, [] => some (false, f, [])
  | i, txout :: vout => do
    let found ← f.matchesData (getOps txout.scriptPubKey).1
    if found && f.updatesFor txout.scriptPubKey then
      let f ← f.insert (outpointData hash i)
      let (_, f, inserted) ← f.matchOutputs hash (i + 1) vout
      some (true, f, outpointData hash i :: inserted)
    else
      let (foundLater, f, inserted) ← f.matchOutputs hash (i + 1) vout
      some (found || foundLater, f, inserted)

/-- The loop over the inputs. -/
def matchInputs (f : CBloomFilter) : List CTxIn → Option Bool
  | [] => some false
  | txin :: vin => do
    if ← f.contains txin.prevout.serialize then return true
    if ← f.matchesData (getOps txin.scriptSig).1 then return true
    f.matchInputs vin

/-- `IsRelevantAndUpdate`, with the outpoints it inserts. -/
def relevantAndUpdate (f : CBloomFilter) (tx : CTransaction) (hash : Uint256) :
    Option (Bool × CBloomFilter × List Bytes) :=
  if f.isFull then some (true, f, [])
  else if f.isEmpty then some (false, f, [])
  else do
    let found ← f.contains (bytes256 hash)
    let (foundOutput, f, inserted) ← f.matchOutputs hash 0 tx.vout
    if found || foundOutput then some (true, f, inserted)
    else
      let foundInput ← f.matchInputs tx.vin
      some (foundInput, f, inserted)

/-- `IsRelevantAndUpdate`. -/
def isRelevantAndUpdate (f : CBloomFilter) (tx : CTransaction) (hash : Uint256) :
    Option (Bool × CBloomFilter) :=
  (f.relevantAndUpdate tx hash).map fun r ↦ (r.1, r.2.1)

/-! ### Where filters come from -/

/-- The constructor for a number of elements, `src/bloom.cpp:19`, with the size that the rate of
false positives gives; LN2 is cut to twenty digits. -/
def forElements (size : Nat) (nElements : Nat) (nTweak : BitVec 32) (nFlags : UInt8) :
    CBloomFilter where
  vData := List.replicate (min size maxBloomFilterSize) 0
  isFull := false
  isEmpty := false
  nHashFuncs := BitVec.ofNat 32
    (min (min size maxBloomFilterSize * 8 / nElements * 69314718055994530941 / 10 ^ 20) maxHashFuncs)
  nTweak
  nFlags

/-- The filters there are: one of `filterclear`, whose other fields are not initialized, one made for
a number of elements, and one that came over the network. -/
inductive Made : CBloomFilter → Prop where
  | clear (isEmpty : Bool) (nHashFuncs nTweak : BitVec 32) (nFlags : UInt8) :
    Made ⟨[], true, isEmpty, nHashFuncs, nTweak, nFlags⟩
  | forElements (size nElements : Nat) (nTweak : BitVec 32) (nFlags : UInt8) (h : 0 < nElements) :
    Made (forElements size nElements nTweak nFlags)
  | loaded (f : CBloomFilter) (h : f.isWithinSizeConstraints) : Made f.updateEmptyFull

/-! ### Operations that do not fail -/

/-- An index is never computed for no data. -/
def Ready (f : CBloomFilter) : Prop := f.isFull ∨ f.vData ≠ [] ∨ f.nHashFuncs = 0

/-- An element the filter cannot miss. -/
def Has (f : CBloomFilter) (e : Bytes) : Prop :=
  f.isFull ∨ f.isEmpty = false ∧ ∀ i < f.nHashFuncs.toNat, ∃ n,
    f.hash i e = some n ∧ BitArray.testBit f.vData n = some true

/-- What an insertion may change: bits are set and the filter is no longer empty. -/
structure Grows (f f' : CBloomFilter) : Prop where
  isFull : f'.isFull = f.isFull
  nHashFuncs : f'.nHashFuncs = f.nHashFuncs
  nTweak : f'.nTweak = f.nTweak
  length : f'.vData.length = f.vData.length
  isEmpty : f.isEmpty = false → f'.isEmpty = false
  bits : ∀ n, BitArray.testBit f.vData n = some true → BitArray.testBit f'.vData n = some true

variable {f f' f'' : CBloomFilter} {e vKey : Bytes}

theorem Grows.refl (f : CBloomFilter) : Grows f f :=
  ⟨rfl, rfl, rfl, rfl, id, fun _ ↦ id⟩

theorem Grows.trans (h : Grows f f') (h' : Grows f' f'') : Grows f f'' where
  isFull := h'.isFull.trans h.isFull
  nHashFuncs := h'.nHashFuncs.trans h.nHashFuncs
  nTweak := h'.nTweak.trans h.nTweak
  length := h'.length.trans h.length
  isEmpty := h'.isEmpty ∘ h.isEmpty
  bits n := h'.bits n ∘ h.bits n

theorem Grows.hash (h : Grows f f') (i : Nat) (e : Bytes) : f'.hash i e = f.hash i e := by
  unfold CBloomFilter.hash
  rw [h.length, h.nTweak]

theorem Grows.ready (h : Grows f f') (hready : f.Ready) : f'.Ready := by
  unfold Ready at hready ⊢
  rw [h.isFull, h.nHashFuncs, ← List.length_pos_iff, h.length, List.length_pos_iff]
  exact hready

/-- What is in the filter stays there. -/
theorem Has.grows (h : f.Has e) (hgrows : Grows f f') : f'.Has e := by
  unfold Has at h ⊢
  rw [hgrows.isFull, hgrows.nHashFuncs]
  refine h.imp_right fun ⟨hempty, hbits⟩ ↦ ⟨hgrows.isEmpty hempty, fun i hi ↦ ?_⟩
  obtain ⟨n, hn, hbit⟩ := hbits i hi
  exact ⟨n, (hgrows.hash i e).trans hn, hgrows.bits n hbit⟩

theorem hash_eq_some (h : f.vData ≠ []) (i : Nat) (e : Bytes) :
    ∃ n, f.hash i e = some n ∧ n < f.vData.length * 8 := by
  have hpos : 0 < f.vData.length * 8 := Nat.mul_pos (List.length_pos_iff.mpr h) (by decide)
  unfold CBloomFilter.hash
  rw [if_neg hpos.ne']
  exact ⟨_, rfl, Nat.mod_lt _ hpos⟩

theorem insertBit_eq_some (h : f.vData ≠ []) (vKey : Bytes) (i : Nat) :
    ∃ f', f.insertBit vKey i = some f' ∧ Grows f f' ∧ f'.vData ≠ [] ∧
      ∃ n, f'.hash i vKey = some n ∧ BitArray.testBit f'.vData n = some true := by
  obtain ⟨n, hn, hlt⟩ := hash_eq_some h i vKey
  have hset := BitArray.setBit_eq_some hlt
  generalize f.vData.modify (n / 8) (· ||| BitArray.mask n) = vData at hset
  have hlength := BitArray.length_setBit hset
  have hgrows : Grows f { f with vData } :=
    ⟨rfl, rfl, rfl, hlength, id, fun m ↦ BitArray.testBit_setBit_of_testBit hset⟩
  refine ⟨{ f with vData }, ?_, hgrows, ?_, n, (hgrows.hash i vKey).trans hn, ?_⟩
  · unfold insertBit
    rw [hn, Option.bind_eq_bind, Option.bind_some, hset]
    rfl
  · rw [← List.length_pos_iff, hlength, List.length_pos_iff]
    exact h
  · exact BitArray.testBit_setBit_self hset

/-- The rounds of `insert`. -/
theorem foldlM_insertBit_eq_some (h : f.vData ≠ []) (vKey : Bytes) (is : List Nat) :
    ∃ f', is.foldlM (fun f i ↦ f.insertBit vKey i) f = some f' ∧ Grows f f' ∧
      ∀ i ∈ is, ∃ n, f'.hash i vKey = some n ∧ BitArray.testBit f'.vData n = some true := by
  induction is generalizing f with
  | nil => exact ⟨f, rfl, .refl f, by simp⟩
  | cons i is ih =>
    obtain ⟨f₁, hinsert, hgrows, hdata, n, hn, hbit⟩ := insertBit_eq_some h vKey i
    obtain ⟨f₂, hrest, hgrows', hbits⟩ := ih hdata
    refine ⟨f₂, ?_, hgrows.trans hgrows', ?_⟩
    · rw [List.foldlM_cons, hinsert]
      exact hrest
    · rw [List.forall_mem_cons]
      exact ⟨⟨n, (hgrows'.hash i vKey).trans hn, hgrows'.bits n hbit⟩, hbits⟩

/-- An insertion succeeds, loses nothing and puts the element in. -/
theorem insert_eq_some (h : f.Ready) (vKey : Bytes) :
    ∃ f', f.insert vKey = some f' ∧ Grows f f' ∧ f'.Has vKey := by
  unfold CBloomFilter.insert
  split
  case isTrue hfull => exact ⟨f, rfl, .refl f, .inl hfull⟩
  case isFalse hfull =>
    rcases h.resolve_left hfull with hdata | hnone
    · obtain ⟨f₁, hfold, hgrows, hbits⟩ := foldlM_insertBit_eq_some hdata vKey
        (List.range f.nHashFuncs.toNat)
      have hgrows' : Grows f { f₁ with isEmpty := false } :=
        ⟨hgrows.isFull, hgrows.nHashFuncs, hgrows.nTweak, hgrows.length, fun _ ↦ rfl, hgrows.bits⟩
      refine ⟨{ f₁ with isEmpty := false }, ?_, hgrows', .inr ⟨rfl, fun i hi ↦ ?_⟩⟩
      · rw [hfold]
        rfl
      · rw [hgrows'.nHashFuncs] at hi
        exact hbits i (List.mem_range.mpr hi)
    · have hzero : f.nHashFuncs.toNat = 0 := by rw [hnone]; rfl
      refine ⟨{ f with isEmpty := false }, ?_, ⟨rfl, rfl, rfl, rfl, fun _ ↦ rfl, fun _ ↦ id⟩,
        .inr ⟨rfl, fun i hi ↦ ?_⟩⟩
      · rw [hzero]
        rfl
      · change i < f.nHashFuncs.toNat at hi
        omega

theorem containsBits_eq_some (h : f.vData ≠ []) (e : Bytes) (is : List Nat) :
    ∃ b, f.containsBits e is = some b := by
  induction is with
  | nil => exact ⟨true, rfl⟩
  | cons i is ih =>
    obtain ⟨n, hn, hlt⟩ := hash_eq_some h i e
    obtain ⟨bit, hbit⟩ := BitArray.testBit_isSome hlt
    rw [containsBits, hn, Option.bind_eq_bind, Option.bind_some, hbit, Option.bind_eq_bind,
      Option.bind_some]
    split
    · exact ⟨false, rfl⟩
    · exact ih

theorem containsBits_of_bits {is : List Nat} (h : ∀ i ∈ is, ∃ n, f.hash i e = some n ∧
    BitArray.testBit f.vData n = some true) : f.containsBits e is = some true := by
  induction is with
  | nil => rfl
  | cons i is ih =>
    rw [List.forall_mem_cons] at h
    obtain ⟨⟨n, hn, hbit⟩, hrest⟩ := h
    rw [containsBits, hn, Option.bind_eq_bind, Option.bind_some, hbit, Option.bind_eq_bind,
      Option.bind_some]
    exact ih hrest

theorem contains_eq_some (h : f.Ready) (e : Bytes) : ∃ b, f.contains e = some b := by
  unfold contains
  split
  case isTrue => exact ⟨true, rfl⟩
  case isFalse hfull =>
    split
    case isTrue => exact ⟨false, rfl⟩
    case isFalse =>
      rcases h.resolve_left hfull with hdata | hnone
      · exact containsBits_eq_some hdata e _
      · rw [hnone]
        exact ⟨true, rfl⟩

theorem Has.contains (h : f.Has e) : f.contains e = some true := by
  unfold CBloomFilter.contains
  split
  case isTrue => rfl
  case isFalse hfull =>
    obtain ⟨hempty, hbits⟩ := h.resolve_left hfull
    rw [hempty, if_neg Bool.false_ne_true]
    exact containsBits_of_bits fun i hi ↦ hbits i (List.mem_range.mp hi)

theorem containsData_eq_some (h : f.Ready) (data : Bytes) : ∃ b, f.containsData data = some b := by
  unfold containsData
  split
  · exact contains_eq_some h data
  · exact ⟨false, rfl⟩

theorem Has.containsData (h : f.Has e) (hne : e ≠ []) : f.containsData e = some true := by
  rw [CBloomFilter.containsData, if_pos fun hzero ↦ hne (List.length_eq_zero_iff.mp hzero), h.contains]

theorem matchesData_eq_some (h : f.Ready) (ops : List ScriptOp) : ∃ b, f.matchesData ops = some b := by
  induction ops with
  | nil => exact ⟨false, rfl⟩
  | cons op ops ih =>
    obtain ⟨found, hfound⟩ := containsData_eq_some h op.data
    rw [matchesData, hfound, Option.bind_eq_bind, Option.bind_some]
    split
    · exact ⟨true, rfl⟩
    · exact ih

theorem Has.matchesData (h : f.Has e) (hready : f.Ready) (hne : e ≠ []) {ops : List ScriptOp}
    (hops : ∃ op ∈ ops, op.data = e) : f.matchesData ops = some true := by
  induction ops with
  | nil =>
    obtain ⟨op, hop, -⟩ := hops
    cases hop
  | cons op ops ih =>
    by_cases hop : op.data = e
    · rw [CBloomFilter.matchesData, hop, h.containsData hne]
      rfl
    · obtain ⟨op', hop', rfl⟩ := hops
      have hrest := ih ⟨op', (List.mem_cons.mp hop').resolve_left (by rintro rfl; exact hop rfl), rfl⟩
      obtain ⟨found, hfound⟩ := containsData_eq_some hready op.data
      rw [CBloomFilter.matchesData, hfound, Option.bind_eq_bind, Option.bind_some, hrest]
      cases found <;> rfl

/-- A script has a push of a data element. -/
def Pushes (script : Bytes) (e : Bytes) : Prop := ∃ op ∈ (getOps script).1, op.data = e

/-- The loop over the outputs succeeds, loses nothing, puts in what it reports, and finds an element
of the filter that an output pushes. -/
theorem matchOutputs_eq_some (h : f.Ready) (hash : Uint256) (i : Nat) (vout : List CTxOut) :
    ∃ found f' inserted, f.matchOutputs hash i vout = some (found, f', inserted) ∧ Grows f f' ∧
      (∀ e ∈ inserted, f'.Has e) ∧
      ∀ e, f.Has e → e ≠ [] → (∃ txout ∈ vout, Pushes txout.scriptPubKey e) → found = true := by
  induction vout generalizing f i with
  | nil =>
    refine ⟨false, f, [], rfl, .refl f, by simp, ?_⟩
    rintro e - - ⟨txout, htxout, -⟩
    cases htxout
  | cons txout vout ih =>
    obtain ⟨found, hfound⟩ := matchesData_eq_some h (getOps txout.scriptPubKey).1
    rw [matchOutputs, hfound, Option.bind_eq_bind, Option.bind_some]
    split
    case isTrue hupdate =>
      obtain ⟨f₁, hinsert, hgrows, hhas⟩ := insert_eq_some h (outpointData hash i)
      obtain ⟨foundLater, f₂, inserted, hrest, hgrows', hinserted, -⟩ := ih (hgrows.ready h) (i + 1)
      refine ⟨true, f₂, outpointData hash i :: inserted, ?_, hgrows.trans hgrows', ?_, ?_⟩
      · rw [hinsert, Option.bind_eq_bind, Option.bind_some, hrest]
        rfl
      · rw [List.forall_mem_cons]
        exact ⟨hhas.grows hgrows', hinserted⟩
      · intros
        rfl
    case isFalse =>
      obtain ⟨foundLater, f₂, inserted, hrest, hgrows', hinserted, hlater⟩ := ih h (i + 1)
      refine ⟨found || foundLater, f₂, inserted, ?_, hgrows', hinserted, ?_⟩
      · rw [hrest]
        rfl
      · rintro e he hne ⟨txout', htxout', hpush⟩
        rcases List.mem_cons.mp htxout' with rfl | htxout'
        · rw [he.matchesData h hne hpush] at hfound
          obtain rfl := Option.some.inj hfound
          rfl
        · rw [hlater e he hne ⟨txout', htxout', hpush⟩, Bool.or_true]

theorem matchInputs_eq_some (h : f.Ready) (vin : List CTxIn) :
    ∃ found, f.matchInputs vin = some found ∧
      ∀ e, f.Has e → e ≠ [] →
        (∃ txin ∈ vin, txin.prevout.serialize = e ∨ Pushes txin.scriptSig e) → found = true := by
  induction vin with
  | nil =>
    refine ⟨false, rfl, ?_⟩
    rintro e - - ⟨txin, htxin, -⟩
    cases htxin
  | cons txin vin ih =>
    obtain ⟨spends, hspends⟩ := contains_eq_some h txin.prevout.serialize
    obtain ⟨pushes, hpushes⟩ := matchesData_eq_some h (getOps txin.scriptSig).1
    obtain ⟨later, hlater, hfound⟩ := ih
    refine ⟨spends || (pushes || later), ?_, ?_⟩
    · rw [matchInputs, hspends, Option.bind_eq_bind, Option.bind_some]
      cases spends
      · rw [if_neg Bool.false_ne_true, hpushes]
        cases pushes
        · exact hlater
        · rfl
      · rfl
    · rintro e he hne ⟨txin', htxin', hmatch⟩
      rcases List.mem_cons.mp htxin' with rfl | htxin'
      · rcases hmatch with rfl | hpush
        · rw [he.contains] at hspends
          obtain rfl := Option.some.inj hspends
          rfl
        · rw [he.matchesData h hne hpush] at hpushes
          obtain rfl := Option.some.inj hpushes
          rw [Bool.true_or, Bool.or_true]
      · rw [hfound e he hne ⟨txin', htxin', hmatch⟩, Bool.or_true, Bool.or_true]

end CBloomFilter

/-- A transaction has an element: as its hash, as data an output pushes, as an outpoint it spends or
as data an input pushes. -/
def CTransaction.Matches (tx : CTransaction) (hash : Uint256) (e : Bytes) : Prop :=
  bytes256 hash = e ∨ (∃ txout ∈ tx.vout, CBloomFilter.Pushes txout.scriptPubKey e) ∨
    ∃ txin ∈ tx.vin, txin.prevout.serialize = e ∨ CBloomFilter.Pushes txin.scriptSig e

namespace CBloomFilter

variable {f f' : CBloomFilter} {e : Bytes}

/-- A call succeeds, loses nothing, puts in what it reports, and finds a transaction that has an
element of the filter. -/
theorem relevantAndUpdate_eq_some (h : f.Ready) (tx : CTransaction) (hash : Uint256) :
    ∃ found f' inserted, f.relevantAndUpdate tx hash = some (found, f', inserted) ∧ Grows f f' ∧
      (∀ e ∈ inserted, f'.Has e) ∧
      ∀ e, f.Has e → e ≠ [] → tx.Matches hash e → found = true := by
  unfold relevantAndUpdate
  split
  case isTrue => exact ⟨true, f, [], rfl, .refl f, by simp, fun _ _ _ _ ↦ rfl⟩
  case isFalse hfull =>
    split
    case isTrue hempty =>
      refine ⟨false, f, [], rfl, .refl f, by simp, fun e he _ _ ↦ ?_⟩
      have hnot := (he.resolve_left hfull).1
      rw [hempty] at hnot
      cases hnot
    case isFalse =>
      obtain ⟨found, hfound⟩ := contains_eq_some h (bytes256 hash)
      obtain ⟨foundOutput, f', inserted, houtputs, hgrows, hinserted, houtput⟩ :=
        matchOutputs_eq_some h hash 0 tx.vout
      obtain ⟨foundInput, hinputs, hinput⟩ := matchInputs_eq_some (hgrows.ready h) tx.vin
      refine ⟨found || foundOutput || foundInput, f', inserted, ?_, hgrows, hinserted, ?_⟩
      · rw [hfound, Option.bind_eq_bind, Option.bind_some, houtputs, Option.bind_eq_bind,
          Option.bind_some]
        dsimp only
        split
        next hany => rw [hany, Bool.true_or]
        next hnone =>
          rw [hinputs, Bool.not_eq_true _ |>.mp hnone, Bool.false_or]
          rfl
      · intro e he hne hmatch
        rcases hmatch with rfl | hpush | hspend
        · rw [he.contains] at hfound
          obtain rfl := Option.some.inj hfound
          rfl
        · rw [houtput e he hne hpush, Bool.or_true, Bool.true_or]
        · rw [hinput e (he.grows hgrows) hne hspend, Bool.or_true]

/-! ### Runs -/

theorem Made.ready (h : Made f) : f.Ready := by
  cases h with
  | clear isEmpty nHashFuncs nTweak nFlags => exact .inl rfl
  | forElements size nElements nTweak nFlags =>
    by_cases hsize : size = 0
    · subst hsize
      refine .inr (.inr ?_)
      simp [CBloomFilter.forElements]
    · refine .inr (.inl ?_)
      rw [CBloomFilter.forElements, ne_eq, List.replicate_eq_nil_iff]
      unfold maxBloomFilterSize
      omega
  | loaded f =>
    by_cases hdata : f.vData = []
    · refine .inl ?_
      rw [updateEmptyFull, hdata]
      rfl
    · exact .inr (.inl hdata)

/-- A call that changes the filter. -/
inductive Call where
  | insert (vKey : Bytes)
  | isRelevantAndUpdate (tx : CTransaction) (hash : Uint256)

/-- A call, with the elements it inserts. -/
def call (f : CBloomFilter) : Call → Option (CBloomFilter × List Bytes)
  | .insert vKey => (f.insert vKey).map fun f ↦ (f, [vKey])
  | .isRelevantAndUpdate tx hash => (f.relevantAndUpdate tx hash).map (·.2)

/-- The filter after a sequence of calls, with all elements inserted on the way. -/
def run (f : CBloomFilter) : List Call → Option (CBloomFilter × List Bytes)
  | [] => some (f, [])
  | c :: calls => do
    let (f, inserted) ← f.call c
    let (f, insertedLater) ← f.run calls
    some (f, inserted ++ insertedLater)

theorem call_eq_some (h : f.Ready) (c : Call) :
    ∃ f' inserted, f.call c = some (f', inserted) ∧ Grows f f' ∧ ∀ e ∈ inserted, f'.Has e := by
  cases c with
  | insert vKey =>
    obtain ⟨f', hinsert, hgrows, hhas⟩ := insert_eq_some h vKey
    refine ⟨f', [vKey], ?_, hgrows, ?_⟩
    · rw [call, hinsert]
      rfl
    · intro e he
      obtain rfl := List.mem_singleton.mp he
      exact hhas
  | isRelevantAndUpdate tx hash =>
    obtain ⟨found, f', inserted, hcall, hgrows, hinserted, -⟩ := relevantAndUpdate_eq_some h tx hash
    refine ⟨f', inserted, ?_, hgrows, hinserted⟩
    rw [call, hcall]
    rfl

theorem run_eq_some (h : f.Ready) (calls : List Call) :
    ∃ f' inserted, f.run calls = some (f', inserted) ∧ Grows f f' ∧ ∀ e ∈ inserted, f'.Has e := by
  induction calls generalizing f with
  | nil => exact ⟨f, [], rfl, .refl f, by simp⟩
  | cons c calls ih =>
    obtain ⟨f₁, inserted, hcall, hgrows, hhas⟩ := call_eq_some h c
    obtain ⟨f₂, insertedLater, hrun, hgrows', hhas'⟩ := ih (hgrows.ready h)
    refine ⟨f₂, inserted ++ insertedLater, ?_, hgrows.trans hgrows', ?_⟩
    · rw [run, hcall, Option.bind_eq_bind, Option.bind_some]
      dsimp only
      rw [hrun]
      rfl
    · intro e he
      rcases List.mem_append.mp he with he | he
      · exact (hhas e he).grows hgrows'
      · exact hhas' e he

/-- No sequence of calls fails, and after it every element that was inserted is reported present,
and so is every transaction that has one of them that is not empty. -/
theorem no_false_negatives (h : Made f) (calls : List Call) :
    ∃ f' inserted, f.run calls = some (f', inserted) ∧
      (∀ vKey, ∃ b, f'.contains vKey = some b) ∧
      (∀ e ∈ inserted, f'.contains e = some true) ∧
      ∀ tx hash, ∃ found f'', f'.isRelevantAndUpdate tx hash = some (found, f'') ∧
        ((∃ e ∈ inserted, e ≠ [] ∧ tx.Matches hash e) → found = true) := by
  obtain ⟨f', inserted, hrun, hgrows, hhas⟩ := run_eq_some h.ready calls
  have hready := hgrows.ready h.ready
  refine ⟨f', inserted, hrun, contains_eq_some hready, fun e he ↦ (hhas e he).contains, ?_⟩
  intro tx hash
  obtain ⟨found, f'', added, hcall, -, -, hfound⟩ := relevantAndUpdate_eq_some hready tx hash
  refine ⟨found, f'', ?_, ?_⟩
  · rw [isRelevantAndUpdate, hcall]
    rfl
  · rintro ⟨e, he, hne, hmatch⟩
    exact hfound e (hhas e he) hne hmatch

/-- A filter of two bytes as a peer may send it. -/
def sampleFilter : CBloomFilter := updateEmptyFull ⟨[0x10, 0], true, false, 2, 5, 1⟩

/-- A transaction whose only output pushes the empty string. -/
def emptyPushTx : CTransaction where
  vout := [⟨0, [0]⟩]

theorem no_false_negatives_sample :
    ∃ f' inserted, sampleFilter.run [.insert [0xab], .isRelevantAndUpdate emptyPushTx 7] =
        some (f', inserted) ∧
      (∀ vKey, ∃ b, f'.contains vKey = some b) ∧
      (∀ e ∈ inserted, f'.contains e = some true) ∧
      ∀ tx hash, ∃ found f'', f'.isRelevantAndUpdate tx hash = some (found, f'') ∧
        ((∃ e ∈ inserted, e ≠ [] ∧ tx.Matches hash e) → found = true) :=
  no_false_negatives (.loaded _ (by decide)) _

/-- The empty string can be inserted, but an empty push is passed over. -/
theorem emptyPush_not_found :
    ¬ ∀ f : CBloomFilter, Made f → ∀ calls f' inserted, f.run calls = some (f', inserted) →
      ∀ tx hash, (∃ e ∈ inserted, tx.Matches hash e) →
        ∃ f'', f'.isRelevantAndUpdate tx hash = some (true, f'') := by
  intro h
  have hmatches : emptyPushTx.Matches 7 [] := .inr (.inl ⟨⟨0, [0]⟩, by decide, ⟨0, []⟩, by decide, rfl⟩)
  obtain ⟨f'', hfound⟩ := h sampleFilter (.loaded _ (by decide)) [.insert []]
    { sampleFilter with vData := [18, 32] } [[]] (by decide) emptyPushTx 7 ⟨[], by decide, hmatches⟩
  have hmissed : ({ sampleFilter with vData := [18, 32] } : CBloomFilter).isRelevantAndUpdate
      emptyPushTx 7 = some (false, { sampleFilter with vData := [18, 32] }) := by decide
  rw [hmissed] at hfound
  cases hfound

end CBloomFilter

end Bitmark
