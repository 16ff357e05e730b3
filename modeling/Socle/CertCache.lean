-- The entries of the certificate caches (sslcertstore.hpp: CertificateChain,
-- CertificateChainCtx, CertCacheEntry). An entry owns references to OpenSSL
-- objects: release() of an entry hands them out, release() of a chain frees
-- them, and nullify() forgets them.
import Mathlib.Tactic
import Socle.Lib.Run
import Socle.Lib.Total

namespace socle.certs

open lib.run lib.total

/-! ## Data -/

/-- A reference that OpenSSL counts, with the address of the object. -/
inductive reference
  | EVP_PKEY (p : Nat) | X509 (p : Nat) | SSL_CTX (p : Nat)
deriving DecidableEq, Repr

def ISSUERS_SZ : Nat := 5

structure CertificateChain where
  key : Option Nat := none
  cert : Option Nat := none
  issuers : Vector (Option Nat) ISSUERS_SZ := .replicate ISSUERS_SZ none
deriving DecidableEq, Repr

structure CertificateChainCtx where
  chain : CertificateChain := {}
  ctx : Option Nat := none
deriving DecidableEq, Repr

/-- The pointers that are set, in the order in which `release` frees them. -/
def CertificateChain.references (c : CertificateChain) : List reference :=
  (c.key.map .EVP_PKEY).toList ++ (c.cert.map .X509).toList ++
    c.issuers.toList.flatMap fun e => (e.map .X509).toList

def CertificateChainCtx.references (c : CertificateChainCtx) : List reference :=
  c.chain.references ++ (c.ctx.map .SSL_CTX).toList

def CertificateChain.nullify (_ : CertificateChain) : CertificateChain :=
  { key := none, cert := none, issuers := .replicate ISSUERS_SZ none }

def CertificateChainCtx.nullify (c : CertificateChainCtx) : CertificateChainCtx :=
  { chain := c.chain.nullify, ctx := none }

/-- `CertificateChainCtx::release`: what is freed, and what is left. -/
def CertificateChainCtx.release (c : CertificateChainCtx) :
    List reference × CertificateChainCtx :=
  (c.chain.references ++ (c.ctx.map .SSL_CTX).toList, { chain := c.chain.nullify, ctx := none })

/-! ## Entries -/

/-- What a move did: what the source held, and what the two hold after it. -/
structure relocation where
  held : CertificateChainCtx
  target : CertificateChainCtx
  source : CertificateChainCtx
deriving DecidableEq, Repr

/-- All `CertCacheEntry` objects, by their `entry_`. The rest is not in the code: it records what
the objects were given, what was freed, what `release` handed back, and the last move. -/
structure Entries where
  objects : AList fun _ : Nat => CertificateChainCtx := ∅
  handed_in : List reference := []
  freed : List reference := []
  handed_back : List reference := []
  relocated : Option relocation := none

namespace Entries

/-- `entry_` of an object. -/
def entry (w : Entries) (i : Nat) : CertificateChainCtx :=
  (w.objects.lookup i).getD {}

def with_entry (w : Entries) (i : Nat) (x : CertificateChainCtx) : Entries :=
  { w with objects := w.objects.insert i x }

/-- `entry_.release()`, which is `reset`. -/
def reset (i : Nat) (w : Entries) : Entries :=
  { w.with_entry i (w.entry i).release.2 with freed := w.freed ++ (w.entry i).release.1 }

/-- `assign`, of object `i` from `v`. -/
def assign (i v : Nat) (w : Entries) : Entries :=
  let w := w.reset i
  let w := w.with_entry i (w.entry v)
  w.reset v

/-- The move operations, with their record. -/
def relocate (i v : Nat) (w : Entries) : Entries :=
  let w' := w.assign i v
  { w' with relocated := some { held := w.entry v, target := w'.entry i, source := w'.entry v } }

/-- `CertCacheEntry(v)`. -/
def construct (i : Nat) (v : CertificateChainCtx) (w : Entries) : Entries :=
  { w.with_entry i v with handed_in := w.handed_in ++ v.references }

/-- `CertCacheEntry(std::move(v))`. -/
def move_construct (i v : Nat) (w : Entries) : Entries :=
  (w.with_entry i {}).relocate i v

/-- `operator=(std::move(v))`. -/
def move_assign (i v : Nat) (w : Entries) : Entries :=
  w.relocate i v

def release (i : Nat) (w : Entries) : Entries :=
  { w.with_entry i (w.entry i).nullify with
    handed_back := w.handed_back ++ (w.entry i).references }

/-- `~CertCacheEntry`. -/
def destroy (i : Nat) (w : Entries) : Entries :=
  let w := w.reset i
  { w with objects := w.objects.erase i }

/-- There is an object `i`. -/
def exists_object (w : Entries) (i : Nat) : Bool :=
  (w.objects.lookup i).isSome

end Entries

inductive entry_call
  | construct (i : Nat) (v : CertificateChainCtx)
  | move_construct (i v : Nat)
  | move_assign (i v : Nat)
  | release (i : Nat)
  | destroy (i : Nat)

/-- Constructors are for new objects, and other calls for objects that are there. -/
def entry_step (w : Entries) (a : entry_call) : Option Entries :=
  let w := { w with relocated := none }
  match a with
  | .construct i v => if w.exists_object i then none else some (w.construct i v)
  | .move_construct i v =>
    if !w.exists_object i && w.exists_object v then some (w.move_construct i v) else none
  | .move_assign i v =>
    if w.exists_object i && w.exists_object v then some (w.move_assign i v) else none
  | .release i => if w.exists_object i then some (w.release i) else none
  | .destroy i => if w.exists_object i then some (w.destroy i) else none

/-! ## The law -/

/-- What the objects hold. -/
def Entries.held (w : Entries) : Multiset reference :=
  sum_of (fun x => (x.references : Multiset reference)) w.objects

/-- Each reference that was handed in is held by one object, or was freed or handed back, and that
once. The target of a move holds what its source held, and the source nothing. -/
structure Owned (w : Entries) : Prop where
  accounted : (w.handed_in : Multiset reference) = w.held + w.freed + w.handed_back
  relocated : ∀ m ∈ w.relocated, m.target = m.held ∧ m.source = {}

/-- A move is from an object that holds nothing. -/
def MovesNothing (w : Entries) : entry_call → Prop
  | .move_construct _ v => w.entry v = {}
  | .move_assign _ v => w.entry v = {}
  | _ => True

/-! ## References -/

@[simp] theorem references_empty : ({} : CertificateChainCtx).references = [] := by decide

@[simp] theorem nullify_eq (c : CertificateChainCtx) : c.nullify = {} := rfl

@[simp] theorem release_eq (c : CertificateChainCtx) : c.release = (c.references, {}) := rfl

/-- A chain without references is one without pointers. -/
theorem references_eq_nil {c : CertificateChainCtx} (h : c.references = []) : c = {} := by
  obtain ⟨⟨key, cert, issuers⟩, ctx⟩ := c
  simp only [CertificateChainCtx.references, CertificateChain.references, List.append_eq_nil_iff,
    Option.toList_eq_nil_iff, Option.map_eq_none_iff, List.flatMap_eq_nil_iff] at h
  obtain ⟨⟨⟨rfl, rfl⟩, hissuers⟩, rfl⟩ := h
  have hnone : issuers = .replicate ISSUERS_SZ none :=
    Vector.eq_replicate_iff.mpr fun e he => hissuers e (Vector.mem_toList_iff.mpr he)
  rw [hnone]

namespace Entries

variable {w : Entries} {i j v : Nat} {x : CertificateChainCtx}

theorem entry_with_entry : (w.with_entry i x).entry j = if j = i then x else w.entry j := by
  unfold entry with_entry
  split
  next heq => rw [heq, AList.lookup_insert, Option.getD_some]
  next hne => rw [AList.lookup_insert_ne hne]

/-- What the entry of `i` adds to what is held. -/
theorem at_key_entry : at_key (fun x => (x.references : Multiset reference)) w.objects i =
    (w.entry i).references := by
  unfold entry
  cases hi : w.objects.lookup i with
  | none => simp [at_key_none hi]
  | some x => simp [at_key_some hi]

theorem held_with_entry :
    (w.with_entry i x).held + ((w.entry i).references : Multiset reference) =
      w.held + (x.references : Multiset reference) := by
  rw [← at_key_entry]
  exact sum_of_insert

theorem held_erase :
    sum_of (fun x => (x.references : Multiset reference)) (w.objects.erase i) +
      ((w.entry i).references : Multiset reference) = w.held := by
  rw [← at_key_entry]
  exact sum_of_erase

/-! ## What a call does -/

theorem entry_reset : (w.reset i).entry j = if j = i then {} else w.entry j := by
  unfold reset
  rw [release_eq]
  exact entry_with_entry

/-- What is freed by a reset was held. -/
theorem reset_accounted : (w.reset i).held + ((w.reset i).freed : Multiset reference) =
    w.held + (w.freed : Multiset reference) := by
  have hheld : (w.reset i).held + ((w.entry i).references : Multiset reference) = w.held := by
    have h := held_with_entry (w := w) (i := i) (x := {})
    rw [references_empty, Multiset.coe_nil, add_zero] at h
    exact h
  have hfreed : ((w.reset i).freed : Multiset reference) =
      w.freed + ((w.entry i).references : Multiset reference) := by
    simp [reset]
  rw [hfreed, ← hheld]
  abel

theorem entry_assign : (w.assign i v).entry j =
    if j = v then {} else if j = i then w.entry v else w.entry j := by
  unfold assign
  simp only [entry_reset, entry_with_entry]
  grind

/-- What the source of a move held is freed, and the target holds it. -/
theorem assign_accounted : (w.assign i v).held + ((w.assign i v).freed : Multiset reference) =
    w.held + (w.freed : Multiset reference) +
      (((w.reset i).entry v).references : Multiset reference) := by
  have hheld := held_with_entry (w := w.reset i) (i := i) (x := (w.reset i).entry v)
  have hempty : (w.reset i).entry i = {} := by rw [entry_reset, if_pos rfl]
  rw [hempty, references_empty, Multiset.coe_nil, add_zero] at hheld
  have hfreed : ((w.reset i).with_entry i ((w.reset i).entry v)).freed = (w.reset i).freed := rfl
  unfold assign
  simp only
  rw [reset_accounted, hheld, hfreed, ← reset_accounted]
  abel

end Entries

/-! ## One step -/

section
variable {w w' : Entries} {i v : Nat}

/-- A move keeps the law when, and only when, it moves nothing. -/
theorem relocate_owned_iff (h : (w.handed_in : Multiset reference) =
    w.held + w.freed + w.handed_back) : Owned (w.relocate i v) ↔ w.entry v = {} := by
  have hheld := Entries.assign_accounted (w := w) (i := i) (v := v)
  have hgiven : (w.assign i v).handed_in = w.handed_in ∧
      (w.assign i v).handed_back = w.handed_back := ⟨rfl, rfl⟩
  have haccount : ((w.relocate i v).handed_in : Multiset reference) =
      (w.relocate i v).held + (w.relocate i v).freed + (w.relocate i v).handed_back ↔
      (((w.reset i).entry v).references : Multiset reference) = 0 := by
    change (w.handed_in : Multiset reference) =
      (w.assign i v).held + ((w.assign i v).freed : Multiset reference) + w.handed_back ↔ _
    rw [hheld, h]
    constructor
    · intro heq
      have hsum : w.held + (w.freed : Multiset reference) + w.handed_back =
          w.held + (w.freed : Multiset reference) + w.handed_back +
            (((w.reset i).entry v).references : Multiset reference) := by
        exact heq.trans (by abel)
      exact left_eq_add.mp hsum
    · intro hzero
      rw [hzero, add_zero]
  have hmove : (∀ m ∈ (w.relocate i v).relocated, m.target = m.held ∧ m.source = {}) ↔
      (w.assign i v).entry i = w.entry v ∧ (w.assign i v).entry v = {} := by
    simp [Entries.relocate]
  constructor
  · rintro ⟨haccounted, hrelocated⟩
    have hzero := haccount.mp haccounted
    have htarget := (hmove.mp hrelocated).1
    rw [Entries.entry_reset, Multiset.coe_eq_zero] at hzero
    rw [Entries.entry_assign] at htarget
    by_cases hself : i = v
    · rw [if_pos hself] at htarget
      exact htarget.symm
    · rw [if_neg (Ne.symm hself)] at hzero
      exact references_eq_nil hzero
  · intro hempty
    refine ⟨haccount.mpr ?_, hmove.mpr ⟨?_, ?_⟩⟩
    · rw [Entries.entry_reset, hempty, ite_self]
      rfl
    · rw [Entries.entry_assign, hempty, if_pos rfl, ite_self]
    · rw [Entries.entry_assign, if_pos rfl]

theorem new_accounted (h : Owned w) (hi : w.objects.lookup i = none) :
    ((w.with_entry i {}).handed_in : Multiset reference) =
      (w.with_entry i {}).held + (w.with_entry i {}).freed + (w.with_entry i {}).handed_back := by
  have hheld : (w.with_entry i {}).held = w.held :=
    (sum_of_insert_new hi).trans (add_zero _)
  rw [hheld]
  exact h.accounted

theorem construct_owned (h : Owned w) (hi : w.objects.lookup i = none) (x : CertificateChainCtx) :
    Owned (w.construct i x) := by
  refine ⟨?_, h.relocated⟩
  have hheld : (w.construct i x).held = w.held + (x.references : Multiset reference) :=
    sum_of_insert_new hi
  change ((w.handed_in ++ x.references : List reference) : Multiset reference) =
    (w.construct i x).held + w.freed + w.handed_back
  rw [hheld, ← Multiset.coe_add, h.accounted]
  abel

theorem release_owned (h : Owned w) (i : Nat) : Owned (w.release i) := by
  refine ⟨?_, h.relocated⟩
  have hheld : (w.release i).held + ((w.entry i).references : Multiset reference) = w.held := by
    have hset := Entries.held_with_entry (w := w) (i := i) (x := {})
    rw [references_empty, Multiset.coe_nil, add_zero] at hset
    exact hset
  change (w.handed_in : Multiset reference) = (w.release i).held + w.freed +
    ((w.handed_back ++ (w.entry i).references : List reference) : Multiset reference)
  rw [← Multiset.coe_add, h.accounted, ← hheld]
  abel

theorem destroy_owned (h : Owned w) (i : Nat) : Owned (w.destroy i) := by
  refine ⟨?_, h.relocated⟩
  have hheld : (w.destroy i).held = (w.reset i).held := by
    have herase := Entries.held_erase (w := w.reset i) (i := i)
    rw [Entries.entry_reset, if_pos rfl, references_empty, Multiset.coe_nil, add_zero] at herase
    exact herase
  change (w.handed_in : Multiset reference) =
    (w.destroy i).held + (w.reset i).freed + w.handed_back
  rw [hheld, Entries.reset_accounted, h.accounted]

/-- A call on a state without a record. -/
theorem step_owned_iff {w' : Entries} {a : entry_call} (h : Owned w)
    (hs : entry_step w a = some w') : Owned w' ↔ MovesNothing w a := by
  have hw : Owned { w with relocated := none } := ⟨h.accounted, fun m hm => nomatch hm⟩
  cases a with
  | construct i x =>
    simp only [entry_step] at hs
    split at hs
    · cases hs
    next hnew =>
      cases hs
      refine iff_of_true (construct_owned hw ?_ x) trivial
      simpa [Entries.exists_object] using hnew
  | move_construct i v =>
    simp only [entry_step] at hs
    split at hs
    next hnew =>
      cases hs
      simp only [Entries.exists_object, Bool.and_eq_true, Bool.not_eq_true',
        Option.isSome_eq_false_iff, Option.isNone_iff_eq_none] at hnew
      have hne : v ≠ i := by
        rintro rfl
        rw [hnew.1] at hnew
        cases hnew.2
      refine (relocate_owned_iff ?_).trans ?_
      · exact new_accounted hw hnew.1
      · rw [Entries.entry_with_entry, if_neg hne]
        rfl
    · cases hs
  | move_assign i v =>
    simp only [entry_step] at hs
    split at hs
    · cases hs
      exact relocate_owned_iff hw.accounted
    · cases hs
  | release i =>
    simp only [entry_step] at hs
    split at hs
    · cases hs
      exact iff_of_true (release_owned hw i) trivial
    · cases hs
  | destroy i =>
    simp only [entry_step] at hs
    split at hs
    · cases hs
      exact iff_of_true (destroy_owned hw i) trivial
    · cases hs

end

/-! ## Runs -/

/-- Each reference is freed once or handed back, and moves hand on what they move, in a run that
moves empty entries only, and in no other. -/
theorem references_are_owned (calls : List entry_call) :
    Always entry_step Owned {} calls ↔ Meets entry_step MovesNothing {} calls :=
  always_iff_meets (fun _ h => h) (fun _ _ _ h hc hs => (step_owned_iff h hs).mpr hc)
    (fun _ _ _ h hc hs => mt (step_owned_iff h hs).mp hc)
    ⟨rfl, fun _ hm => by cases hm⟩ calls

/-- An entry with a key and a certificate is moved. They are freed, and the target points to
them. -/
theorem a_moved_entry_is_freed :
    ¬ ∀ calls : List entry_call, Always entry_step Owned {} calls := by
  intro hall
  have hrun : (exec entry_step {}
      [.construct 0 { chain := { key := some 1, cert := some 2 } }, .move_construct 1 0]).map
      (fun w => decide ((w.handed_in : Multiset reference) = w.held + w.freed + w.handed_back)) =
      some false := by decide
  obtain ⟨w, hw, hend⟩ := Option.map_eq_some_iff.mp hrun
  exact of_decide_eq_false hend (always_exec (hall _) hw).accounted

end socle.certs
