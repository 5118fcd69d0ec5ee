import Ext4Fsd.Journal.TagWalk

/-! # What a log means

The abstract side of recovery: a log as the list of its committed transactions, and the client
contents these transactions leave. Nothing here follows the passes of `jbd2_replay_journal`. The
blocks of the log are read as the format lays them out: a descriptor block has the tags up to the
one flagged last, each with its data block behind it, going around the ring; block numbers are
unsigned, with a high half of 32 bits; the entries of a revoke block start after its count. -/

namespace Ext4Fsd.Journal.Transactions

open Ext4Fsd.Lib.CInt
open Ext4Fsd.Journal.Format Ext4Fsd.Journal.Tags Ext4Fsd.Journal.Recovery Ext4Fsd.Journal.Effects
open Ext4Fsd.Journal.TagWalk (descrTags)

/-! ### The format -/

section
variable (log : ℤ → Block) (chksum : Chksum) (h : Jbd2Handle)

/-- The block after `b` in the ring: the last block of the log is followed by the first one. -/
def ringNext (b : ℤ) : ℤ := if b = h.jhEnd then h.jhStart else b + 1

/-- The `n`-th block after `b` in the ring. -/
def ringAdd (b : ℤ) (n : ℕ) : ℤ := (ringNext h)^[n] b

/-- The tags of a descriptor block, when the last one is flagged so. -/
def closedTags (buf : Block) : Option (List ℕ) :=
  if (descrTags h buf).any fun t => jbd2TestFlag h buf t jbd2FlagLastTag then some (descrTags h buf)
  else none

/-- The block number of a tag. -/
def tagBlocknr (buf : Block) (off : ℕ) : ℕ :=
  be32 buf off + if jbd2HasFeature64bit h.jhSb then be32 buf (off + 8) * 2 ^ 32 else 0

/-- The block a tag logs and its un-escaped data, the `i`-th block behind the descriptor block. -/
def tagData (b : ℤ) (i off : ℕ) : ℤ × Block :=
  (tagBlocknr h (log b) off,
    unescape (jbd2TestFlag h (log b) off jbd2FlagEscape) (log (ringAdd h b (i + 1))))

/-- The blocks of a revoke block: the entries between its header of 16 bytes and its count. -/
def revokedBlocks (buf : Block) : List ℤ :=
  (List.range ((be32 buf 12 - 16) / jbd2RevokeEntrySize h)).map fun k =>
    if jbd2HasFeature64bit h.jhSb then be64 buf (16 + k * jbd2RevokeEntrySize h)
    else be32 buf (16 + k * jbd2RevokeEntrySize h)

/-! ### Transactions -/

/-- What a block of a transaction other than its commit block says. -/
inductive Item
  | descr (tags : List (ℤ × Block))
  | revoke (blocks : List ℤ)

/-- A transaction, by the blocks before its commit block. -/
abbrev Transaction := List Item

/-- The blocks from `b` to before `c` are the items of a transaction `tid`. -/
inductive Items (tid : ℤ) : ℤ → Transaction → ℤ → Prop
  | nil (b : ℤ) : Items tid b [] b
  | descr {b c : ℤ} {offs : List ℕ} {rest : Transaction} (hd : DescrOf chksum h (log b) tid)
      (htags : closedTags h (log b) = some offs)
      (hrest : Items tid (ringAdd h b (offs.length + 1)) rest c) :
      Items tid b (.descr (offs.mapIdx (tagData log h b)) :: rest) c
  | revoke {b c : ℤ} {rest : Transaction} (hr : RevokeOf chksum h (log b) tid)
      (hrest : Items tid (ringNext h b) rest c) :
      Items tid b (.revoke (revokedBlocks h (log b)) :: rest) c

/-- **The log from block `b` and tid `tid` on is the sequence of the given transactions**, and ends
at the first block from which no further one follows. -/
inductive LogOf : ℤ → ℤ → List Transaction → Prop
  | stop {b tid : ℤ} (hno : ∀ t c, Items log chksum h tid b t c → ¬ CommitOf chksum h (log c) tid) :
      LogOf b tid []
  | txn {b c tid : ℤ} {t : Transaction} {rest : List Transaction}
      (hitems : Items log chksum h tid b t c) (hcommit : CommitOf chksum h (log c) tid)
      (hrest : LogOf (ringNext h c) (toI32 (tid + 1)) rest) : LogOf b tid (t :: rest)

end

/-! ### The client contents -/

def Item.tags : Item → List (ℤ × Block)
  | .descr tags => tags
  | .revoke _ => []

def Item.revoked : Item → List ℤ
  | .descr _ => []
  | .revoke blocks => blocks

/-- The data of the last tag for `b` in a transaction. -/
def lastData (t : Transaction) (b : ℤ) : Option Block :=
  ((t.flatMap Item.tags).findRev? fun tag => tag.1 = b).map Prod.snd

/-- A transaction revokes `b`. -/
def revokes (t : Transaction) (b : ℤ) : Bool := t.any fun item => decide (b ∈ item.revoked)

/-- The data for `b` of the last transaction that logs it and is followed, itself included, by no
transaction that revokes it. -/
def survivor : List Transaction → ℤ → Option Block
  | [], _ => none
  | t :: rest, b =>
    (survivor rest b).or (if (t :: rest).any (revokes · b) then none else lastData t b)

/-- **The client contents after recovery.** -/
def recovered (txns : List Transaction) (client : ℤ → Block) (b : ℤ) : Block :=
  (survivor txns b).getD (client b)

/-- The transactions leave the client as it is exactly when it holds all their data. -/
theorem recovered_eq_iff {txns : List Transaction} {client : ℤ → Block} :
    recovered txns client = client ↔ ∀ b d, survivor txns b = some d → client b = d := by
  rw [funext_iff]
  refine forall_congr' fun b => ?_
  unfold recovered
  cases survivor txns b with
  | none => simp
  | some d =>
    rw [Option.getD_some]
    constructor
    · intro hd d' hd'
      rw [← Option.some.inj hd', hd]
    · intro hd
      exact (hd d rfl).symm

end Ext4Fsd.Journal.Transactions
