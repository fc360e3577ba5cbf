import Bitmark.Base.Stream
import Bitmark.Lib.SortedMultimap
import Mathlib.Data.List.Induction

/-!
# The order of the wallet's activity

`ReorderTransactions` (`src/walletdb.cpp:245`) gives a place to the transactions and accounting
entries of old wallets that have none: it goes through all of them by time, takes new places from a
running maximum, and moves the places there are up by the number of new ones at or below them.
-/

namespace Bitmark

/-! ### The database -/

/-- `string("acentry")`. -/
def acentryType : Bytes := [0x61, 0x63, 0x65, 0x6e, 0x74, 0x72, 0x79]

/-- A record: an accounting entry, with the fields that order it, or one of another type. The rest
of the key of such a record is not read. -/
inductive WalletRecord where
  | acentry (strAccount : Bytes) (nEntryNo : BitVec 64) (nTime : ℤ)
  | other (strType rest : Bytes)
deriving DecidableEq, Repr

/-- The key of an accounting entry. -/
def acentryKey (strAccount : Bytes) (nEntryNo : ℕ) : Bytes :=
  writeBytes acentryType ++ (writeBytes strAccount ++ leBytes 8 nEntryNo)

/-- The key of a record. -/
def WalletRecord.key : WalletRecord → Bytes
  | .acentry strAccount nEntryNo _ => acentryKey strAccount nEntryNo.toNat
  | .other strType rest => writeBytes strType ++ rest

/-- A record other than an accounting entry has another type, and sizes are below 2^64. -/
def WalletRecord.Valid : WalletRecord → Prop
  | .acentry strAccount _ _ => strAccount.length < 2 ^ 64
  | .other strType _ => strType ≠ acentryType ∧ strType.length < 2 ^ 64

/-- A transaction of the wallet or an accounting entry, by its key. -/
inductive OrderItem where
  | tx (hash : Uint256)
  | acentry (strAccount : Bytes) (nEntryNo : BitVec 64)
deriving DecidableEq, Repr

/-- The wallet: `mapWallet` with `nTimeReceived` in the order of the hashes, the records of the
database in the order of their keys, and the field `nOrderPos` of each transaction and entry. -/
structure OrderedWallet where
  mapWallet : List (Uint256 × ℕ)
  sorted_mapWallet : mapWallet.Pairwise fun a b ↦ a.1 < b.1
  records : List WalletRecord
  sorted_records : records.Pairwise fun a b ↦ a.key < b.key
  valid : ∀ r ∈ records, r.Valid
  nOrderPos : OrderItem → ℤ

/-- The loop of `ListAccountCreditDebit` from the cursor on. -/
def listLoop (fAllAccounts : Bool) (strAccount : Bytes) : List WalletRecord → List (OrderItem × ℤ)
  | .acentry account nEntryNo nTime :: records =>
    if !fAllAccounts && account ≠ strAccount then []
    else (.acentry account nEntryNo, nTime) :: listLoop fAllAccounts strAccount records
  | .other _ _ :: _ => []
  | [] => []

/-- `ListAccountCreditDebit`, `src/walletdb.cpp:200`: the entries it reads, with their times. -/
def listAccountCreditDebit (records : List WalletRecord) (strAccount : Bytes) :
    List (OrderItem × ℤ) :=
  let fAllAccounts := strAccount = [0x2a]
  let ssKey := acentryKey (if fAllAccounts then [] else strAccount) 0
  listLoop fAllAccounts strAccount (records.dropWhile (·.key < ssKey))

/-! ### The loop -/

/-- The field `nOrderPos` of each item, `nOrderPosNext`, `nOrderPosOffsets`, and how many records
were written. -/
structure ReorderState where
  nOrderPos : OrderItem → ℤ
  nOrderPosNext : ℤ
  nOrderPosOffsets : List ℤ
  writes : ℕ

/-- `nOrderPosOff`: how many of the offsets a position is not below. -/
def nOrderPosOff (nOrderPosOffsets : List ℤ) (nOrderPos : ℤ) : ℕ :=
  nOrderPosOffsets.countP (nOrderPos ≥ ·)

/-- Whether an item is an accounting entry. -/
def OrderItem.isEntry : OrderItem → Bool
  | .tx _ => false
  | .acentry _ _ => true

/-- `WriteTx` or `WriteAccountingEntry`, which may fail. -/
def ReorderState.write (s : ReorderState) (writeOk : ℕ → Bool) : Option ReorderState :=
  if writeOk s.writes then some { s with writes := s.writes + 1 } else none

/-- The body of the loop; `none` is `DB_LOAD_FAIL`. -/
def reorderItem (writeOk : ℕ → Bool) (s : ReorderState) (item : OrderItem) : Option ReorderState :=
  let nOrderPos := s.nOrderPos item
  if nOrderPos = -1 then
    let next : ReorderState :=
      { s with
        nOrderPos := Function.update s.nOrderPos item s.nOrderPosNext
        nOrderPosNext := s.nOrderPosNext + 1
        nOrderPosOffsets := s.nOrderPosOffsets ++ [s.nOrderPosNext] }
    if item.isEntry then next.write writeOk else some next
  else
    let off := nOrderPosOff s.nOrderPosOffsets nOrderPos
    let next : ReorderState :=
      { s with
        nOrderPos := Function.update s.nOrderPos item (nOrderPos + off)
        nOrderPosNext := max s.nOrderPosNext (nOrderPos + off + 1) }
    if off = 0 then some next else next.write writeOk

namespace OrderedWallet

variable (w : OrderedWallet)

/-- `txByTime`. -/
def txByTime : SortedMultimap ℤ OrderItem :=
  (listAccountCreditDebit w.records []).foldl (fun m e ↦ m.insert e.2 e.1)
    (w.mapWallet.foldl (fun m tx ↦ m.insert tx.2 (.tx tx.1)) ∅)

/-- The items by time. -/
def itemsByTime : List OrderItem := w.txByTime.entries.map (·.2)

/-- `ReorderTransactions`, `src/walletdb.cpp:245`. -/
def reorderTransactions (writeOk : ℕ → Bool) : Option ReorderState :=
  w.itemsByTime.foldlM (reorderItem writeOk) ⟨w.nOrderPos, 0, [], 0⟩

end OrderedWallet

/-! ### What is listed -/

/-- An accounting entry of an account. -/
def WalletRecord.inAccount (strAccount : Bytes) : WalletRecord → Bool
  | .acentry account _ _ => account = strAccount
  | .other _ _ => false

/-- An accounting entry with its time. -/
def WalletRecord.item? : WalletRecord → Option (OrderItem × ℤ)
  | .acentry account nEntryNo nTime => some (.acentry account nEntryNo, nTime)
  | .other _ _ => none

/-- Between two strings with a common beginning there are only strings that begin so. -/
theorem exists_append_of_between {p x y k : Bytes} (hlow : ¬ k < p ++ y) (hhigh : k < p ++ x) :
    ∃ z, k = p ++ z := by
  induction p generalizing k with
  | nil => exact ⟨k, rfl⟩
  | cons c p ih =>
    cases k with
    | nil => exact absurd (List.nil_lt_cons _ _) hlow
    | cons b k =>
      rw [List.cons_append, List.cons_lt_cons_iff, not_or] at hlow
      rw [List.cons_append, List.cons_lt_cons_iff] at hhigh
      rcases hhigh with hlt | ⟨rfl, hlt⟩
      · exact absurd hlt hlow.1
      · obtain ⟨z, rfl⟩ := ih (fun h ↦ hlow.2 ⟨rfl, h⟩) hlt
        exact ⟨z, rfl⟩

theorem append_lt_append_iff {p x y : Bytes} : p ++ x < p ++ y ↔ x < y := by
  induction p with
  | nil => rfl
  | cons c p ih =>
    rw [List.cons_append, List.cons_append, List.cons_lt_cons_iff, ih]
    constructor
    · rintro (h | ⟨-, h⟩)
      · exact absurd h (UInt8.lt_irrefl c)
      · exact h
    · intro h
      exact .inr ⟨rfl, h⟩

theorem not_lt_leBytes_zero (n x : ℕ) : ¬ leBytes n x < leBytes n 0 := by
  induction n generalizing x with
  | zero => exact List.lt_irrefl _
  | succ n ih =>
    rw [leBytes, leBytes, List.cons_lt_cons_iff]
    rintro (h | ⟨-, h⟩)
    · exact absurd h (UInt8.not_lt.mpr (UInt8.zero_le))
    · exact ih _ h

/-- In a list in which a test holds of a stretch that begins after what is left out, the stretch is
what passes the test. -/
theorem takeWhile_dropWhile_eq_filter {α : Type} {drop keep : α → Bool} {l : List α}
    (hkeep : ∀ a ∈ l, keep a = true → drop a = false)
    (hstretch : l.Pairwise fun a b ↦ drop a = false → keep b = true → keep a = true)
    (hdrop : l.Pairwise fun a b ↦ drop a = false → drop b = false) :
    (l.dropWhile drop).takeWhile keep = l.filter keep := by
  induction l with
  | nil => rfl
  | cons a l ih =>
    obtain ⟨hfirst, hstretch⟩ := List.pairwise_cons.mp hstretch
    obtain ⟨hlater, hdrop⟩ := List.pairwise_cons.mp hdrop
    have ih := ih (fun b hb ↦ hkeep b (List.mem_cons_of_mem _ hb)) hstretch hdrop
    cases ha : drop a with
    | true =>
      have hout : keep a ≠ true := fun h ↦ by
        rw [hkeep a List.mem_cons_self h] at ha
        cases ha
      rw [List.dropWhile_cons_of_pos ha, List.filter_cons_of_neg hout]
      exact ih
    | false =>
      have hall : ∀ b ∈ l, drop b = false := fun b hb ↦ hlater b hb ha
      have hnone : l.dropWhile drop = l := by
        cases l with
        | nil => rfl
        | cons b l =>
          rw [List.dropWhile_cons_of_neg]
          rw [hall b List.mem_cons_self]
          exact Bool.false_ne_true
      rw [hnone] at ih
      rw [List.dropWhile_cons_of_neg (by rw [ha]; exact Bool.false_ne_true)]
      cases hk : keep a with
      | true => rw [List.takeWhile_cons_of_pos hk, List.filter_cons_of_pos hk, ih]
      | false =>
        have hrest : ∀ b ∈ l, ¬ keep b = true := fun b hb h ↦ by
          rw [hfirst b hb ha h] at hk
          cases hk
        rw [List.takeWhile_cons_of_neg (by rw [hk]; exact Bool.false_ne_true),
          List.filter_cons_of_neg (by rw [hk]; exact Bool.false_ne_true),
          List.filter_eq_nil_iff.mpr hrest]

theorem listLoop_eq (strAccount : Bytes) (records : List WalletRecord) :
    listLoop false strAccount records =
      (records.takeWhile (WalletRecord.inAccount strAccount)).filterMap WalletRecord.item? := by
  induction records with
  | nil => rfl
  | cons r records ih =>
    cases r with
    | other => rfl
    | acentry account nEntryNo nTime =>
      rw [listLoop]
      by_cases h : account = strAccount
      · have hin : (WalletRecord.acentry account nEntryNo nTime).inAccount strAccount = true :=
          decide_eq_true h
        rw [if_neg (by simp [h]), List.takeWhile_cons_of_pos hin, ih]
        rfl
      · have hout : ¬ (WalletRecord.acentry account nEntryNo nTime).inAccount strAccount = true :=
          fun hin ↦ h (of_decide_eq_true hin)
        rw [if_pos (by simp [h]), List.takeWhile_cons_of_neg hout]
        rfl

/-- What begins like the key of an entry of an account is one. -/
theorem WalletRecord.Valid.inAccount {r : WalletRecord} {strAccount z : Bytes} (h : r.Valid)
    (hsize : strAccount.length < 2 ^ 64)
    (hkey : r.key = (writeBytes acentryType ++ writeBytes strAccount) ++ z) :
    r.inAccount strAccount = true := by
  have htype : acentryType.length < 2 ^ 64 := by decide
  rw [List.append_assoc] at hkey
  cases r with
  | other strType rest =>
    obtain ⟨hne, hlength⟩ := h
    exact absurd (writeBytes_append_inj hlength htype hkey).1 hne
  | acentry account nEntryNo nTime =>
    have hrest := (writeBytes_append_inj htype htype hkey).2
    exact decide_eq_true (writeBytes_append_inj h hsize hrest).1

/-- The scan comes to the entries of its account, and to no others. -/
theorem listAccountCreditDebit_eq (w : OrderedWallet) {strAccount : Bytes}
    (hall : strAccount ≠ [0x2a]) (hsize : strAccount.length < 2 ^ 64) :
    listAccountCreditDebit w.records strAccount =
      (w.records.filter (WalletRecord.inAccount strAccount)).filterMap WalletRecord.item? := by
  have hprefix : ∀ account n, acentryKey account n =
      (writeBytes acentryType ++ writeBytes account) ++ leBytes 8 n := fun account n ↦
    (List.append_assoc _ _ _).symm
  have hkeyOf : ∀ r : WalletRecord, r.inAccount strAccount = true →
      ∃ n, r.key = acentryKey strAccount n := by
    intro r hr
    cases r with
    | other => cases hr
    | acentry account nEntryNo nTime =>
      obtain rfl := of_decide_eq_true hr
      exact ⟨_, rfl⟩
  rw [listAccountCreditDebit, decide_eq_false hall]
  rw [listLoop_eq]
  congr 1
  apply takeWhile_dropWhile_eq_filter
  · intro r _ hr
    obtain ⟨n, hn⟩ := hkeyOf r hr
    rw [decide_eq_false_iff_not, hn, if_neg hall, hprefix, hprefix,
      append_lt_append_iff]
    exact not_lt_leBytes_zero 8 n
  · apply (w.sorted_records.imp_of_mem (S := fun a b ↦ a ∈ w.records ∧ a.key < b.key) ?_).imp
    · rintro a b ⟨ha, hlt⟩ hlow hb
      obtain ⟨n, hn⟩ := hkeyOf b hb
      rw [decide_eq_false_iff_not, if_neg hall, hprefix] at hlow
      rw [hn, hprefix] at hlt
      obtain ⟨z, hz⟩ := exists_append_of_between hlow hlt
      exact (w.valid a ha).inAccount hsize hz
    · intro a b ha _ hlt
      exact ⟨ha, hlt⟩
  · apply w.sorted_records.imp
    intro a b hlt hlow
    rw [decide_eq_false_iff_not] at hlow ⊢
    intro h
    exact hlow (List.lt_trans hlt h)

/-! ### Numbering -/

/-- The position that comes next and the offsets, after one more item. -/
def number (s : ℤ × List ℤ) (p : ℤ) : ℤ × List ℤ :=
  if p = -1 then (s.1 + 1, s.2 ++ [s.1]) else (max s.1 (p + nOrderPosOff s.2 p + 1), s.2)

/-- The position an item gets. -/
def newPos (s : ℤ × List ℤ) (p : ℤ) : ℤ := if p = -1 then s.1 else p + nOrderPosOff s.2 p

/-- The next position and the offsets after a list of items. -/
def numberAll (l : List ℤ) : ℤ × List ℤ := l.foldl number (0, [])

/-- The highest position of a list, or -1. -/
def highest (l : List ℤ) : ℤ := l.foldl max (-1)

/-- How many items of a list have no position. -/
def unordered (l : List ℤ) : ℕ := l.count (-1)

/-- The offsets rise and stay below the next position. -/
structure Numbering (s : ℤ × List ℤ) : Prop where
  nonneg : 0 ≤ s.1
  rising : s.2.Pairwise (· < ·)
  lt_next : ∀ o ∈ s.2, 0 ≤ o ∧ o < s.1

/-- A position, or -1. -/
def IsPos (p : ℤ) : Prop := p = -1 ∨ 0 ≤ p

theorem numbering_nil : Numbering (0, []) := ⟨le_rfl, .nil, nofun⟩

theorem newPos_lt_next {s : ℤ × List ℤ} (hs : Numbering s) {p : ℤ} (hp : IsPos p) :
    0 ≤ newPos s p ∧ newPos s p < (number s p).1 ∧ p ≤ newPos s p := by
  have hnext := hs.nonneg
  rw [newPos, number]
  by_cases h : p = -1
  · rw [if_pos h, if_pos h]
    dsimp only
    omega
  · rw [if_neg h, if_neg h]
    have hp0 : 0 ≤ p := hp.resolve_left h
    have hmax := le_max_right s.1 (p + nOrderPosOff s.2 p + 1)
    dsimp only
    omega

theorem Numbering.number {s : ℤ × List ℤ} (hs : Numbering s) (p : ℤ) :
    Numbering (number s p) ∧ s.1 ≤ (Bitmark.number s p).1 := by
  have hnext := hs.nonneg
  rw [Bitmark.number]
  split
  case isTrue h =>
    refine ⟨⟨by dsimp only; omega, ?_, ?_⟩, by dsimp only; omega⟩
    · rw [List.pairwise_append]
      refine ⟨hs.rising, List.pairwise_singleton _ _, ?_⟩
      intro o ho o' ho'
      obtain rfl := List.mem_singleton.mp ho'
      exact (hs.lt_next o ho).2
    · intro o ho
      rcases List.mem_append.mp ho with ho | ho
      · obtain ⟨h0, hlt⟩ := hs.lt_next o ho
        exact ⟨h0, hlt.trans (lt_add_one _)⟩
      · obtain rfl := List.mem_singleton.mp ho
        exact ⟨hnext, lt_add_one _⟩
  case isFalse h =>
    have hle := le_max_left s.1 (p + nOrderPosOff s.2 p + 1)
    refine ⟨⟨hnext.trans hle, hs.rising, fun o ho ↦ ?_⟩, hle⟩
    obtain ⟨h0, hlt⟩ := hs.lt_next o ho
    exact ⟨h0, hlt.trans_le hle⟩

/-- Later items only add offsets that are not below what came next before them. -/
theorem foldl_number {s : ℤ × List ℤ} (hs : Numbering s) (l : List ℤ) :
    Numbering (l.foldl number s) ∧ s.1 ≤ (l.foldl number s).1 ∧
      ∃ later, (l.foldl number s).2 = s.2 ++ later ∧ ∀ o ∈ later, s.1 ≤ o := by
  induction l generalizing s with
  | nil => exact ⟨hs, le_rfl, [], (List.append_nil _).symm, nofun⟩
  | cons p l ih =>
    obtain ⟨hstep, hle⟩ := hs.number p
    obtain ⟨hrun, hle', later, hlater, hge⟩ := ih hstep
    refine ⟨hrun, hle.trans hle', ?_⟩
    by_cases h : p = -1
    · have hoffsets : (number s p).2 = s.2 ++ [s.1] := by rw [number, if_pos h]
      refine ⟨s.1 :: later, ?_, ?_⟩
      · rw [List.foldl_cons, hlater, hoffsets, List.append_assoc, List.singleton_append]
      · intro o ho
        rcases List.mem_cons.mp ho with rfl | ho
        · exact le_rfl
        · exact hle.trans (hge o ho)
    · have hoffsets : (number s p).2 = s.2 := by rw [number, if_neg h]
      refine ⟨later, ?_, fun o ho ↦ hle.trans (hge o ho)⟩
      rw [List.foldl_cons, hlater, hoffsets]

theorem nOrderPosOff_mono (offsets : List ℤ) {p q : ℤ} (h : p ≤ q) :
    nOrderPosOff offsets p ≤ nOrderPosOff offsets q := by
  apply List.countP_mono_left
  intro o _ ho
  exact decide_eq_true ((of_decide_eq_true ho).trans h)

/-- Two items that have positions keep their order. -/
theorem newPos_lt_iff {s : ℤ × List ℤ} (hs : Numbering s) {p q : ℤ} (mid : List ℤ) (hp : 0 ≤ p)
    (hq : 0 ≤ q) (hne : p ≠ q) :
    (newPos s p < newPos (mid.foldl number (number s p)) q ↔ p < q) ∧
      newPos s p ≠ newPos (mid.foldl number (number s p)) q := by
  have hp1 : p ≠ -1 := by omega
  have hq1 : q ≠ -1 := by omega
  obtain ⟨-, hnext, hself⟩ := newPos_lt_next hs (.inr hp)
  obtain ⟨-, -, later, hlater, hge⟩ := foldl_number (hs.number p).1 mid
  have hoffsets : (number s p).2 = s.2 := by rw [number, if_neg hp1]
  have hcount : nOrderPosOff (mid.foldl number (number s p)).2 q =
      nOrderPosOff s.2 q + nOrderPosOff later q := by
    rw [hlater, hoffsets, nOrderPosOff, nOrderPosOff, nOrderPosOff, List.countP_append]
  rw [newPos, if_neg hp1] at hnext hself ⊢
  rw [newPos, if_neg hq1, hcount]
  rcases lt_or_gt_of_ne hne with hlt | hgt
  · have := nOrderPosOff_mono s.2 hlt.le
    omega
  · have hmono := nOrderPosOff_mono s.2 hgt.le
    have hnone : nOrderPosOff later q = 0 := by
      apply List.countP_eq_zero.mpr
      intro o ho hle
      have := hge o ho
      have := of_decide_eq_true hle
      omega
    omega

/-! ### Positions that are not hit -/

/-- No item with a position follows one without, before which `n` items had none and the highest
position was `m`, and has a position above `m` and not above `m + n`. -/
def Clear (l : List ℤ) : Prop :=
  ∀ pre mid p post, l = pre ++ (-1) :: (mid ++ p :: post) → p ≠ -1 → highest pre < p →
    highest pre + unordered pre < p

theorem highest_concat (l : List ℤ) (p : ℤ) : highest (l ++ [p]) = max (highest l) p := by
  rw [highest, List.foldl_append, ← highest]
  rfl

theorem neg_one_le_highest (l : List ℤ) : -1 ≤ highest l := by
  induction l using List.reverseRecOn with
  | nil => exact le_rfl
  | append_singleton l p ih =>
    rw [highest_concat]
    exact ih.trans (le_max_left _ _)

theorem highest_le_append (l l' : List ℤ) : highest l ≤ highest (l ++ l') := by
  induction l' using List.reverseRecOn with
  | nil => rw [List.append_nil]
  | append_singleton l' p ih =>
    rw [← List.append_assoc, highest_concat]
    exact ih.trans (le_max_left _ _)

theorem Clear.of_append {l l' : List ℤ} (h : Clear (l ++ l')) : Clear l := by
  intro pre mid p post hsplit hp hlt
  refine h pre mid p (post ++ l') ?_ hp hlt
  rw [hsplit, List.append_assoc, List.cons_append, List.append_assoc, List.cons_append]

/-- What the numbering has come to: an item without a position got the place after the highest
position before it and the places given before. -/
structure Tracks (l : List ℤ) (s : ℤ × List ℤ) : Prop where
  next : s.1 = highest l + unordered l + 1
  length : s.2.length = unordered l
  offsets : ∀ before o after, s.2 = before ++ o :: after → ∃ pre post,
    l = pre ++ (-1) :: post ∧ before.length = unordered pre ∧ o = highest pre + unordered pre + 1

/-- A position above those before it is not below any offset. -/
theorem Tracks.le_of_highest_lt {l : List ℤ} {s : ℤ × List ℤ} {p o : ℤ} (h : Tracks l s)
    (hclear : Clear (l ++ [p])) (hp : p ≠ -1) {before after : List ℤ}
    (hsplit : s.2 = before ++ o :: after) :
    (o ≤ p ∨ p + before.length < o) ∧ (highest l < p → o ≤ p) := by
  obtain ⟨pre, post, hl, hlength, ho⟩ := h.offsets before o after hsplit
  have hplace : highest pre < p → highest pre + unordered pre < p :=
    hclear pre post p [] (by rw [hl, List.append_assoc, List.cons_append]) hp
  have hle : highest pre ≤ highest l := by
    rw [hl]
    exact highest_le_append _ _
  by_cases hlt : highest pre < p
  · have := hplace hlt
    omega
  · omega

theorem tracks_numberAll {l : List ℤ} (hclear : Clear l) (hpos : ∀ p ∈ l, IsPos p) :
    Tracks l (numberAll l) := by
  induction l using List.reverseRecOn with
  | nil =>
    refine ⟨rfl, rfl, fun before o after h ↦ ?_⟩
    exact absurd h.symm (List.append_ne_nil_of_right_ne_nil _ (List.cons_ne_nil _ _))
  | append_singleton l p ih =>
    have ih := ih hclear.of_append fun q hq ↦ hpos q (List.mem_append_left _ hq)
    have hstep : numberAll (l ++ [p]) = number (numberAll l) p := by
      rw [numberAll, List.foldl_append, ← numberAll]
      rfl
    have hhighest := neg_one_le_highest l
    rw [hstep]
    by_cases hp : p = -1
    · subst hp
      have hmax : highest (l ++ [-1]) = highest l := by
        rw [highest_concat]
        omega
      have hcount : unordered (l ++ [-1]) = unordered l + 1 := by
        rw [unordered, List.count_append, ← unordered]
        rfl
      rw [number, if_pos rfl]
      refine ⟨?_, ?_, ?_⟩
      · rw [ih.next, hmax, hcount]
        push_cast
        ring
      · rw [List.length_append, ih.length, hcount]
        rfl
      · intro before o after hsplit
        rcases List.eq_nil_or_concat after with rfl | ⟨after, q, rfl⟩
        · obtain ⟨rfl, ho⟩ := List.append_inj' hsplit rfl
          obtain rfl := (List.cons.inj ho).1
          exact ⟨l, [], rfl, ih.length, ih.next⟩
        · rw [List.concat_eq_append, ← List.cons_append, ← List.append_assoc] at hsplit
          obtain ⟨pre, post, hl, hlength, ho⟩ :=
            ih.offsets before o after (List.append_inj' hsplit rfl).1
          exact ⟨pre, post ++ [-1], by rw [hl, List.append_assoc, List.cons_append], hlength, ho⟩
    · have hcount : unordered (l ++ [p]) = unordered l := by
        rw [unordered, List.count_append, ← unordered, List.count_singleton,
          if_neg (by simpa using hp), Nat.add_zero]
      have hoff : nOrderPosOff (numberAll l).2 p ≤ unordered l := by
        rw [← ih.length]
        exact List.countP_le_length
      rw [number, if_neg hp]
      refine ⟨?_, ih.length.trans hcount.symm, ?_⟩
      · rw [highest_concat, hcount, ih.next]
        dsimp only
        by_cases hlt : highest l < p
        · have hall : nOrderPosOff (numberAll l).2 p = unordered l := by
            rw [← ih.length]
            apply List.countP_eq_length.mpr
            intro o ho
            obtain ⟨before, after, hsplit⟩ := List.append_of_mem ho
            exact decide_eq_true ((ih.le_of_highest_lt hclear hp hsplit).2 hlt)
          omega
        · omega
      · intro before o after hsplit
        obtain ⟨pre, post, hl, hlength, ho⟩ := ih.offsets before o after hsplit
        exact ⟨pre, post ++ [p], by rw [hl, List.append_assoc, List.cons_append], hlength, ho⟩

/-- An item that has a position does not get the place of one that had none. -/
theorem newPos_notMem {l : List ℤ} {p : ℤ} (hclear : Clear (l ++ [p])) (hpos : ∀ q ∈ l, IsPos q)
    (hp : p ≠ -1) : newPos (numberAll l) p ∉ (numberAll l).2 := by
  have htracks := tracks_numberAll hclear.of_append hpos
  have hrising := (foldl_number numbering_nil l).1.rising
  rw [newPos, if_neg hp]
  intro hmem
  obtain ⟨before, after, hsplit⟩ := List.append_of_mem hmem
  have hcount : nOrderPosOff (numberAll l).2 p =
      nOrderPosOff before p + nOrderPosOff
        ((p + nOrderPosOff (numberAll l).2 p) :: after) p := by
    conv_lhs => rw [hsplit]
    exact List.countP_append
  rcases (htracks.le_of_highest_lt hclear hp hsplit).1 with hle | hlt
  · -- the place is counted itself, so it is above the position
    have hself : 0 < nOrderPosOff ((p + nOrderPosOff (numberAll l).2 p) :: after) p :=
      List.countP_pos_iff.mpr ⟨_, List.mem_cons_self, decide_eq_true hle⟩
    omega
  · -- the place and what is above it are not counted
    have hbefore : nOrderPosOff before p ≤ before.length := List.countP_le_length
    have hnone : nOrderPosOff ((p + nOrderPosOff (numberAll l).2 p) :: after) p = 0 := by
      apply List.countP_eq_zero.mpr
      intro o ho hle
      have hle := of_decide_eq_true hle
      change (numberAll l).2.Pairwise _ at hrising
      rw [hsplit, List.pairwise_append] at hrising
      rcases List.mem_cons.mp ho with rfl | ho
      · omega
      · have := (List.pairwise_cons.mp hrising.2.1).1 o ho
        omega
    omega

theorem numberAll_append_cons (l : List ℤ) (p : ℤ) (l' : List ℤ) :
    numberAll (l ++ p :: l') = l'.foldl number (number (numberAll l) p) := by
  rw [numberAll, List.foldl_append, ← numberAll, List.foldl_cons]

/-- A list is clear exactly when each item with a position is compared with the right places: it is
not below the place of any item that was numbered when all positions were below its own. -/
theorem clear_iff_counted {l : List ℤ} (hpos : ∀ p ∈ l, IsPos p) :
    Clear l ↔ ∀ pre mid p post, l = pre ++ (-1) :: (mid ++ p :: post) → p ≠ -1 →
      highest pre < p → (numberAll pre).1 ≤ p := by
  constructor
  · intro hclear pre mid p post hsplit hp hlt
    have hpre : Clear pre := by
      rw [hsplit] at hclear
      exact hclear.of_append
    have hplace := hclear pre mid p post hsplit hp hlt
    have hnext := (tracks_numberAll hpre fun q hq ↦ hpos q (by simp [hsplit, hq])).next
    omega
  · induction hn : l.length using Nat.strong_induction_on generalizing l with
    | h n ih =>
      intro hcounted pre mid p post hsplit hp hlt
      -- up to there the list is clear, by induction on its length
      have hpre : Clear pre := by
        refine ih pre.length ?_ (fun q hq ↦ hpos q (by simp [hsplit, hq])) rfl ?_
        · rw [← hn, hsplit, List.length_append, List.length_cons]
          omega
        · intro pre' mid' p' post' hsplit'
          apply hcounted pre' mid' p' (post' ++ (-1) :: (mid ++ p :: post))
          rw [hsplit, hsplit', List.append_assoc, List.cons_append, List.append_assoc,
            List.cons_append]
      have hnext := (tracks_numberAll hpre fun q hq ↦ hpos q (by simp [hsplit, hq])).next
      have hle := hcounted pre mid p post hsplit hp hlt
      omega

/-- Two items of a list, the first of them before the other. -/
theorem placed_ne {l pre mid post : List ℤ} {p q : ℤ} (hsplit : l = pre ++ p :: (mid ++ q :: post))
    (hpos : ∀ r ∈ l, IsPos r) (hclear : Clear l) (hne : p ≠ -1 → p ≠ q) :
    newPos (numberAll pre) p ≠ newPos (numberAll (pre ++ p :: mid)) q ∧
      (p ≠ -1 → q ≠ -1 →
        (newPos (numberAll pre) p < newPos (numberAll (pre ++ p :: mid)) q ↔ p < q)) := by
  have hp : IsPos p := hpos p (by simp [hsplit])
  have hq : IsPos q := hpos q (by simp [hsplit])
  have hs := (foldl_number numbering_nil pre).1
  have hlt := (newPos_lt_next hs hp).2.1
  obtain ⟨-, hnext, later, hlater, -⟩ := foldl_number (hs.number p).1 mid
  by_cases hq1 : q = -1
  · -- a new place is above all that were given
    have hplace : newPos (numberAll (pre ++ p :: mid)) q = (numberAll (pre ++ p :: mid)).1 := by
      rw [newPos, if_pos hq1]
    rw [hplace, numberAll_append_cons]
    exact ⟨(hlt.trans_le hnext).ne, fun _ h ↦ absurd hq1 h⟩
  have hclear' : Clear ((pre ++ p :: mid) ++ [q]) := by
    rw [hsplit] at hclear
    have hwhole : pre ++ p :: (mid ++ q :: post) = ((pre ++ p :: mid) ++ [q]) ++ post := by
      rw [List.append_assoc, List.append_assoc, List.singleton_append, List.cons_append]
    rw [hwhole] at hclear
    exact hclear.of_append
  by_cases hp1 : p = -1
  · -- the place of the first is one of the offsets
    have hmem : newPos (numberAll pre) p ∈ (numberAll (pre ++ p :: mid)).2 := by
      rw [numberAll_append_cons, numberAll, hlater, number, newPos, if_pos hp1, if_pos hp1]
      simp
    have hout := newPos_notMem hclear'
      (fun r hr ↦ hpos r (by
        rw [hsplit]
        simp only [List.mem_append, List.mem_cons] at hr ⊢
        tauto)) hq1
    exact ⟨fun heq ↦ hout (heq ▸ hmem), fun h ↦ absurd hp1 h⟩
  · obtain ⟨hiff, hdistinct⟩ := newPos_lt_iff hs mid (hp.resolve_left hp1) (hq.resolve_left hq1)
      (hne hp1)
    rw [numberAll_append_cons]
    exact ⟨hdistinct, fun _ _ ↦ hiff⟩

/-- Two different members of a list come one after the other. -/
theorem exists_split_of_mem {α : Type} {l : List α} {x y : α} (hx : x ∈ l) (hy : y ∈ l)
    (hne : x ≠ y) : (∃ pre mid post, l = pre ++ x :: (mid ++ y :: post)) ∨
      ∃ pre mid post, l = pre ++ y :: (mid ++ x :: post) := by
  obtain ⟨pre, post, rfl⟩ := List.append_of_mem hx
  rcases List.mem_append.mp hy with hy | hy
  · obtain ⟨pre, mid, rfl⟩ := List.append_of_mem hy
    exact .inr ⟨pre, mid, post, by rw [List.append_assoc, List.cons_append]⟩
  · obtain ⟨mid, post, rfl⟩ := List.append_of_mem (List.mem_of_ne_of_mem hne.symm hy)
    exact .inl ⟨pre, mid, post, rfl⟩

/-! ### A run -/

/-- What comes next and the offsets of a state. -/
def ReorderState.numbering (s : ReorderState) : ℤ × List ℤ :=
  (s.nOrderPosNext, s.nOrderPosOffsets)

theorem write_eq_some {s s' : ReorderState} {writeOk : ℕ → Bool} (h : s.write writeOk = some s') :
    s'.nOrderPos = s.nOrderPos ∧ s'.numbering = s.numbering := by
  rw [ReorderState.write] at h
  split at h
  · obtain rfl := Option.some.inj h
    exact ⟨rfl, rfl⟩
  · cases h

theorem reorderItem_eq_some {writeOk : ℕ → Bool} {s s' : ReorderState} {item : OrderItem}
    (h : reorderItem writeOk s item = some s') :
    s'.nOrderPos =
        Function.update s.nOrderPos item (newPos s.numbering (s.nOrderPos item)) ∧
      s'.numbering = number s.numbering (s.nOrderPos item) := by
  rw [reorderItem] at h
  rw [newPos, number]
  by_cases hp : s.nOrderPos item = -1
  · rw [if_pos hp] at h
    rw [if_pos hp, if_pos hp]
    dsimp only at h
    split at h
    · exact write_eq_some h
    · obtain rfl := Option.some.inj h
      exact ⟨rfl, rfl⟩
  · rw [if_neg hp] at h
    rw [if_neg hp, if_neg hp]
    dsimp only at h
    split at h
    · obtain rfl := Option.some.inj h
      exact ⟨rfl, rfl⟩
    · exact write_eq_some h

theorem reorderLoop_eq_some {writeOk : ℕ → Bool} {items : List OrderItem} {s s' : ReorderState}
    (hnodup : items.Nodup) (h : items.foldlM (reorderItem writeOk) s = some s') :
    s'.numbering = (items.map s.nOrderPos).foldl number s.numbering ∧
      (∀ item, item ∉ items → s'.nOrderPos item = s.nOrderPos item) ∧
      ∀ pre item post, items = pre ++ item :: post →
        s'.nOrderPos item = newPos ((pre.map s.nOrderPos).foldl number s.numbering)
          (s.nOrderPos item) := by
  induction items generalizing s with
  | nil =>
    obtain rfl := Option.some.inj h
    refine ⟨rfl, fun _ _ ↦ rfl, fun pre item post hsplit ↦ ?_⟩
    exact absurd hsplit.symm (List.append_ne_nil_of_right_ne_nil _ (List.cons_ne_nil _ _))
  | cons first items ih =>
    obtain ⟨hfirst, hrest⟩ := List.nodup_cons.mp hnodup
    rw [List.foldlM_cons, Option.bind_eq_bind, Option.bind_eq_some_iff] at h
    obtain ⟨s₁, hstep, hrun⟩ := h
    obtain ⟨hnOrderPos, hnumber⟩ := reorderItem_eq_some hstep
    obtain ⟨hall, hothers, hplaces⟩ := ih hrest hrun
    have hsame : ∀ item, item ≠ first → s₁.nOrderPos item = s.nOrderPos item := fun item hne ↦ by
      rw [hnOrderPos, Function.update_of_ne hne]
    have hmap : ∀ l : List OrderItem, (∀ item ∈ l, item ≠ first) →
        l.map s₁.nOrderPos = l.map s.nOrderPos := fun l hl ↦
      List.map_congr_left fun item hitem ↦ hsame item (hl item hitem)
    have hne : ∀ item ∈ items, item ≠ first := fun item hitem heq ↦ hfirst (heq ▸ hitem)
    refine ⟨?_, ?_, ?_⟩
    · rw [hall, hmap items hne, hnumber, List.map_cons, List.foldl_cons]
    · intro item hitem
      obtain ⟨hnot, hmem⟩ := not_or.mp (mt List.mem_cons.mpr hitem)
      rw [hothers item hmem, hsame item hnot]
    · intro pre item post hsplit
      cases pre with
      | nil =>
        obtain ⟨rfl, rfl⟩ := List.cons.inj hsplit
        rw [hothers _ hfirst, hnOrderPos, Function.update_self]
        rfl
      | cons first' pre =>
        obtain ⟨rfl, rfl⟩ := List.cons.inj hsplit
        rw [hplaces pre item post rfl, hnumber,
          hmap pre fun item hitem ↦ hne item (List.mem_append_left _ hitem),
          hsame item (hne item (List.mem_append_right _ List.mem_cons_self)), List.map_cons,
          List.foldl_cons]

namespace OrderedWallet

variable (w : OrderedWallet)

/-- The transactions and accounting entries of the wallet. -/
def items : List OrderItem :=
  w.mapWallet.map (fun tx ↦ .tx tx.1) ++ (w.records.filterMap WalletRecord.item?).map (·.1)

theorem perm_foldl_insert {α : Type} (k : α → ℤ) (v : α → OrderItem) (l : List α)
    (m : SortedMultimap ℤ OrderItem) :
    (l.foldl (fun m a ↦ m.insert (k a) (v a)) m).entries.Perm
      (m.entries ++ l.map fun a ↦ (k a, v a)) := by
  induction l generalizing m with
  | nil =>
    rw [List.map_nil, List.append_nil]
    rfl
  | cons a l ih =>
    have hinsert : (m.insert (k a) (v a)).entries.Perm ((k a, v a) :: m.entries) :=
      SortedMultimap.perm_insertEntry _ _
    rw [List.foldl_cons, List.map_cons]
    exact (ih _).trans ((hinsert.append_right _).trans List.perm_middle.symm)

/-- The loop comes to each transaction, and to each entry of the account without a name. -/
theorem perm_itemsByTime : w.itemsByTime.Perm
    (w.mapWallet.map (fun tx ↦ .tx tx.1) ++
      ((w.records.filter (WalletRecord.inAccount [])).filterMap WalletRecord.item?).map (·.1)) := by
  have hlist : listAccountCreditDebit w.records [] = _ :=
    listAccountCreditDebit_eq w (by decide) (by decide)
  rw [itemsByTime, txByTime, hlist]
  refine ((perm_foldl_insert _ _ _ _).map _).trans ?_
  rw [List.map_append, List.map_map]
  refine List.Perm.append ?_ (.refl _)
  refine ((perm_foldl_insert _ _ _ _).map _).trans ?_
  rw [SortedMultimap.entries_empty, List.nil_append, List.map_map]
  rfl

theorem nodup_items : w.items.Nodup := by
  rw [items, List.nodup_append']
  refine ⟨?_, ?_, ?_⟩
  · refine (List.pairwise_map.mpr ?_ : List.Pairwise _ _)
    refine w.sorted_mapWallet.imp fun hlt heq ↦ ?_
    rw [OrderItem.tx.inj heq] at hlt
    exact BitVec.lt_irrefl _ hlt
  · rw [List.map_filterMap]
    refine List.pairwise_filterMap.mpr ?_
    refine w.sorted_records.imp ?_
    rintro a b hlt x hx y hy rfl
    cases a with
    | other => cases hx
    | acentry account nEntryNo nTime =>
      cases b with
      | other => cases hy
      | acentry account' nEntryNo' nTime' =>
        obtain ⟨rfl, rfl⟩ := OrderItem.acentry.inj (Option.some.inj (hx.trans hy.symm))
        exact absurd hlt (List.lt_irrefl _)
  · intro x htx hentry
    obtain ⟨tx, -, rfl⟩ := List.mem_map.mp htx
    obtain ⟨e, he, hitem⟩ := List.mem_map.mp hentry
    obtain ⟨r, -, hr⟩ := List.mem_filterMap.mp he
    cases r with
    | other => cases hr
    | acentry =>
      obtain rfl := Option.some.inj hr
      cases hitem

/-- When all entries are of the account without a name, the loop comes to all items. -/
theorem perm_items (h : ∀ account nEntryNo, .acentry account nEntryNo ∈ w.items → account = []) :
    w.itemsByTime.Perm w.items := by
  have hall : w.records.filterMap WalletRecord.item? =
      (w.records.filter (WalletRecord.inAccount [])).filterMap WalletRecord.item? := by
    rw [List.filterMap_filter]
    refine List.filterMap_congr fun r hr ↦ ?_
    cases r with
    | other => rfl
    | acentry account nEntryNo nTime =>
      have hmem : OrderItem.acentry account nEntryNo ∈ w.items :=
        List.mem_append_right _ (List.mem_map.mpr
          ⟨_, List.mem_filterMap.mpr ⟨_, hr, rfl⟩, rfl⟩)
      exact (if_pos (decide_eq_true (h account nEntryNo hmem))).symm
  rw [items, hall]
  exact w.perm_itemsByTime

/-- An entry of an account with a name is not loaded, and keeps the position it has. -/
theorem nOrderPos_of_named {writeOk : ℕ → Bool} {s : ReorderState}
    (hok : w.reorderTransactions writeOk = some s) {account : Bytes} (hnamed : account ≠ [])
    (nEntryNo : BitVec 64) :
    s.nOrderPos (.acentry account nEntryNo) = w.nOrderPos (.acentry account nEntryNo) := by
  have hloaded : (w.mapWallet.map (fun tx ↦ OrderItem.tx tx.1) ++
      ((w.records.filter (WalletRecord.inAccount [])).filterMap WalletRecord.item?).map (·.1)).Sublist
        w.items :=
    (List.Sublist.refl _).append ((List.filter_sublist.filterMap _).map _)
  have hnodup := w.perm_itemsByTime.nodup_iff.mpr (w.nodup_items.sublist hloaded)
  refine (reorderLoop_eq_some hnodup hok).2.1 _ fun hmem ↦ ?_
  rcases List.mem_append.mp (w.perm_itemsByTime.mem_iff.mp hmem) with htx | hentry
  · obtain ⟨tx, -, htx⟩ := List.mem_map.mp htx
    cases htx
  · obtain ⟨e, he, hitem⟩ := List.mem_map.mp hentry
    obtain ⟨r, hr, hrecord⟩ := List.mem_filterMap.mp he
    cases r with
    | other => cases hrecord
    | acentry account' nEntryNo' nTime =>
      obtain rfl := Option.some.inj hrecord
      obtain ⟨rfl, -⟩ := OrderItem.acentry.inj hitem
      exact hnamed (of_decide_eq_true (List.mem_filter.mp hr).2)

/-- The wallet is in order: the positions are not negative, distinct, and below the next one, and
those that there were keep their order. -/
structure Reordered (s : ReorderState) : Prop where
  bounds : ∀ x ∈ w.items, 0 ≤ s.nOrderPos x ∧ s.nOrderPos x < s.nOrderPosNext
  distinct : ∀ x ∈ w.items, ∀ y ∈ w.items, x ≠ y → s.nOrderPos x ≠ s.nOrderPos y
  order : ∀ x ∈ w.items, ∀ y ∈ w.items, w.nOrderPos x ≠ -1 → w.nOrderPos y ≠ -1 →
    (s.nOrderPos x < s.nOrderPos y ↔ w.nOrderPos x < w.nOrderPos y)

end OrderedWallet

/-- Two transactions and, after them, an accounting entry. -/
def threeItems (strAccount : Bytes) (hsize : strAccount.length < 2 ^ 64)
    (nOrderPos : OrderItem → ℤ) : OrderedWallet where
  mapWallet := [(1, 10), (2, 20)]
  sorted_mapWallet := by decide
  records := [.other [0x74, 0x78] [], .acentry strAccount 1 30]
  sorted_records := List.pairwise_pair.mpr (List.cons_lt_cons_iff.mpr (.inl (by decide)))
  valid r hr := by
    rcases List.mem_cons.mp hr with rfl | hr
    · exact ⟨by decide, by decide⟩
    · obtain rfl := List.mem_singleton.mp hr
      exact hsize
  nOrderPos

/-- The positions of three items. -/
def threePositions (first second entry : ℤ) : OrderItem → ℤ
  | .tx hash => if hash = 1 then first else second
  | .acentry _ _ => entry

end Bitmark
