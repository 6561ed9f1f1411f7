import FlagSets.Proofs.Draws
import FlagSets.Proofs.Equality
import FlagSets.Proofs.Inheritance
import FlagSets.Strategy.Family
import FlagSets.Strategy.Generate
import FlagSets.VarSet.Walk
import Mathlib.Data.List.Forall2

/-!
# What backs a growable set

A growable set is backed by a kind that is settled when the set is made: by the backend that was
handed over, or else by the one of the settings in force at that moment. A kind of growable sets
settles it when it is made itself, for all values that it will ever make.

A program makes growable sets in every way there is, works on them, makes kinds and strategies over
them, generates and shrinks values, and changes the settings in force in between. What backs each of
its objects is written down once, when the object is made, in a ledger that is only ever added to:
what the backend names at that moment, or what backs the object that the new one is made of. The
ledger is right at all times.

## Main results

* `Backing.resolve_eq_ok_iff` : what a backend is resolved to is what it names.
* `Strategy.newTree_backedBy` : a strategy generates values that are backed like its kind, whatever
  backs its mask.
* `ValueTree.simplify_keeps`, `ValueTree.complicate_keeps` : so are they while they are shrunk.
* `World.perform_recorded`, `World.run_recorded` : the ledger is right after every deed.
* `World.backings_recorded` : what backs an object is settled for ever when it is made.
-/

namespace FlagSets

open Outcome

/-! ## What a backend names -/

namespace Backing

/-- The growable representation that a datum names. Words and kinds of growable sets are none. -/
def named : Datum → Option Backing
  | .kind (.growable b) => some b
  | .text s =>
    if s = "bool_vec" then some .boolVec else if s = "bitarray" then some .bitArray else none
  | _ => none

/-- The representation that a backend names, or else the settings in force. -/
def chosen (inForce backend : Datum) : Option Backing :=
  match backend with
  | .absent =>
    match inForce with
    | .settings c => named c.bitsetBackend
    | _ => none
  | d => named d

/-- No kind of fixed width backs a growable set, nor does a kind of growable sets. -/
theorem chosen_kind_eq_none {k : Kind} (h : k.width?.isSome ∨ ∃ b, k = .varsize b)
    (inForce : Datum) : chosen inForce (.kind k) = none := by
  cases k with
  | word w => rfl
  | varsize b => rfl
  | growable b =>
      rcases h with hwidth | ⟨c, hc⟩
      · cases hwidth
      · cases hc

/-- What is done with a backend that was handed over, or found in the settings. -/
private theorem resolve_named (inForce d : Datum) (hd : d ≠ .absent) (b : Backing) :
    resolve inForce d = .ok b ↔ named d = some b := by
  cases d with
  | absent => exact absurd rfl hd
  | kind k =>
      cases k with
      | growable c => simp [resolve, named, bind, Except.bind, pure, Except.pure]
      | word w => simp [resolve, named, bind, Except.bind, pure, Except.pure, refuse]
      | varsize c => simp [resolve, named, bind, Except.bind, pure, Except.pure, refuse]
  | text s =>
      simp only [resolve, named, bind, Except.bind, pure, Except.pure]
      split
      · simp
      · split
        · simp
        · simp [refuse]
  | _ => simp [resolve, named, bind, Except.bind, pure, Except.pure, refuse]

/-- What a backend is resolved to is what it names, or else what the settings in force name. -/
theorem resolve_eq_ok_iff {inForce backend : Datum} {b : Backing} :
    resolve inForce backend = .ok b ↔ chosen inForce backend = some b := by
  cases backend with
  | absent =>
      cases inForce with
      | settings c =>
          by_cases hc : c.bitsetBackend = .absent
          · simp [resolve, chosen, named, hc, bind, Except.bind, pure, Except.pure, refuse]
          · have hsame : resolve (.settings c) .absent = resolve .absent c.bitsetBackend := by
              generalize hd : c.bitsetBackend = d at hc
              cases d <;> first | exact absurd rfl hc | simp [resolve, hd]
            rw [hsame]
            exact resolve_named .absent c.bitsetBackend hc b
      | _ => simp [resolve, chosen, bind, Except.bind]
  | _ => exact resolve_named inForce _ (by simp) b

end Backing

/-! ## Growable sets -/

namespace VarSet

variable {s t : VarSet} {ix inForce backend : Datum}

theorem backing_setAt [Memory] (h : s.setAt ix = .ok t) : t.backing = s.backing := by
  obtain ⟨n, -, rfl⟩ := eq_set_of_setAt h
  rfl

theorem backing_clearAt (h : s.clearAt ix = .ok t) : t.backing = s.backing := by
  obtain ⟨n, -, h⟩ := Outcome.bind_eq_ok_iff.mp h
  obtain rfl := Except.ok.inj h
  rfl

/-- Setting one bit after another keeps the backing. -/
theorem backing_foldlM_setAt [Memory] {items : List Datum} (h : items.foldlM setAt s = .ok t) :
    t.backing = s.backing := by
  induction items generalizing s with
  | nil =>
      obtain rfl := Except.ok.inj h
      rfl
  | cons d rest ih =>
      obtain ⟨next, hnext, hrest⟩ := Outcome.bind_eq_ok_iff.mp h
      rw [ih hrest, backing_setAt hnext]

/-- A set made of indices is backed by what its backend was resolved to. -/
theorem backing_fromIndices [Memory] {indices : Datum}
    (h : fromIndices inForce indices backend = .ok s) :
    Backing.resolve inForce backend = .ok s.backing := by
  obtain ⟨hint, -, h⟩ := Outcome.bind_eq_ok_iff.mp h
  obtain ⟨start, hstart, h⟩ := Outcome.bind_eq_ok_iff.mp h
  obtain ⟨items, -, h⟩ := Outcome.bind_eq_ok_iff.mp h
  rw [backing_foldlM_setAt h]
  exact backing_make hstart

theorem backing_saturated [Memory] {length : Datum} (h : saturated inForce length backend = .ok s) :
    Backing.resolve inForce backend = .ok s.backing := by
  unfold saturated at h
  split at h
  · exact backing_fromIndices h
  · cases h

end VarSet

/-! ## Values of a kind of growable sets -/

/-- A datum is a growable set with a given backing. -/
def Datum.BackedBy (b : Backing) (v : Datum) : Prop := ∃ s : VarSet, v = .varSet s ∧ s.backing = b

namespace Kind

variable {b c : Backing} {v w ix : Datum}

/-- A kind of growable sets makes sets with its own backing. -/
theorem backedBy_allocate [Memory] {asked : Datum} (h : (varsize b).allocate asked = .ok v) :
    v.BackedBy b := by
  obtain ⟨made, -, h⟩ := Outcome.bind_eq_ok_iff.mp h
  exact ⟨_, (Except.ok.inj h).symm, rfl⟩

/-- Setting a bit keeps the backing, also where it is not that of the kind. -/
theorem backedBy_set [Memory] (hv : v.BackedBy b) (h : (varsize c).set v ix = .ok w) :
    w.BackedBy b := by
  obtain ⟨s, rfl, rfl⟩ := hv
  obtain ⟨t, ht, h⟩ := Outcome.bind_eq_ok_iff.mp h
  exact ⟨t, (Except.ok.inj h).symm, VarSet.backing_setAt ht⟩

theorem backedBy_clear (hv : v.BackedBy b) (h : (varsize c).clear v ix = .ok w) :
    w.BackedBy b := by
  obtain ⟨s, rfl, rfl⟩ := hv
  obtain ⟨t, ht, h⟩ := Outcome.bind_eq_ok_iff.mp h
  exact ⟨t, (Except.ok.inj h).symm, VarSet.backing_clearAt ht⟩

end Kind

/-! ## Generating -/

/-- A tree over growable sets with a given backing. -/
def ValueTree.BackedBy (b : Backing) (t : ValueTree) : Prop :=
  t.kind = .varsize b ∧ t.held.BackedBy b

namespace Strategy

open Step

variable {b : Backing} {v : Datum}

/-- Throwing coins sets bits, and a mask is only looked at. -/
theorem coins_backedBy [Memory] (mask : Option Datum) (bits : List Int) (hv : v.BackedBy b) :
    (coins (.varsize b) mask bits v).Returns (·.BackedBy b) := by
  induction bits generalizing v with
  | nil => exact .of_pure hv
  | cons bit rest ih =>
      have hnext : ∀ free : Bool, Returns (do
          if free then
            if ← Source.boolean then
              coins (.varsize b) mask rest (← liftM ((Kind.varsize b).set v (.int bit)))
            else coins (.varsize b) mask rest v
          else coins (.varsize b) mask rest v : Draw Datum) (·.BackedBy b) := by
        intro free
        split
        · refine .bind (.any _) fun coin _ => ?_
          split
          · exact .bind (.of_liftM fun w hw => Kind.backedBy_set hv hw) fun w hw => ih hw
          · exact ih hv
        · exact ih hv
      unfold coins
      cases mask with
      | none => exact .bind (.any _) fun free _ => hnext free
      | some mask => exact .bind (.any _) fun _ _ => .bind (.any _) fun free _ => hnext free

/-- So does setting chosen bits. -/
theorem backedBy_setAll [Memory] {bits : List Datum} {w : Datum} (hv : v.BackedBy b)
    (h : setAll (.varsize b) v bits = .ok w) : w.BackedBy b := by
  unfold setAll at h
  induction bits generalizing v with
  | nil => exact Except.ok.inj h ▸ hv
  | cons bit rest ih =>
      obtain ⟨next, hnext, hrest⟩ := Outcome.bind_eq_ok_iff.mp h
      exact ih (Kind.backedBy_set hv hnext) hrest

/-- A strategy over growable sets generates values that are backed like its kind, whatever backs its
mask. -/
theorem newTree_backedBy [Memory] {s : Strategy} (hs : s.kind? = some (.varsize b)) :
    s.newTree.Returns (·.BackedBy b) := by
  cases s with
  | range k low high mask =>
      cases hs
      refine .bind (.of_liftM fun v hv => Kind.backedBy_allocate hv) fun v hv => ?_
      refine .bind (coins_backedBy mask _ hv) fun w hw => ?_
      exact .of_pure ⟨rfl, hw⟩
  | sampled k size bits =>
      cases hs
      refine .bind (.of_liftM fun v hv => Kind.backedBy_allocate hv) fun v hv => ?_
      refine .bind (.any _) fun count _ => .bind (.any _) fun room _ => ?_
      split
      · exact .throw_bind _ _
      · refine .bind (.any _) fun chosen _ => ?_
        refine .bind (.of_liftM fun w hw => backedBy_setAll hv hw) fun w hw => ?_
        exact .of_pure ⟨rfl, hw⟩
  | bare => cases hs

/-- The same with whatever is handed over for a source. -/
theorem newTreeFrom_backedBy [Memory] {s : Strategy} (hs : s.kind? = some (.varsize b))
    {supply : Source.Supply} {tree : ValueTree} (h : (s.newTreeFrom supply).1 = .ok tree) :
    tree.BackedBy b := by
  unfold newTreeFrom at h
  split at h
  · cases h
  · rename_i source _
    exact (newTree_backedBy hs).of_run (Prod.ext h rfl)

end Strategy

/-! ## Shrinking -/

namespace Step

variable {σ α β : Type} {p : σ → Prop}

/-- A step leads from states with a property to such states, also where it fails. -/
def Keeps (p : σ → Prop) (d : Step σ α) : Prop := ∀ s, p s → p (d.run s).2

namespace Keeps

theorem pure (a : α) : Keeps p (Pure.pure a : Step σ α) := fun _ h => h

theorem set {s : σ} (h : p s) : Keeps p (MonadStateOf.set s : Step σ PUnit) := fun _ _ => h

theorem bind {d : Step σ α} {f : α → Step σ β} (hd : Keeps p d) (hf : ∀ a, Keeps p (f a)) :
    Keeps p (d >>= f) := by
  intro s hs
  have hfirst := hd s hs
  rw [run_bind]
  cases hrun : d.run s with
  | mk outcome t =>
      rw [hrun] at hfirst
      cases outcome with
      | ok a => exact hf a t hfirst
      | error fault => exact hfirst

/-- A state that is read has the property. -/
theorem get_bind {f : σ → Step σ β} (hf : ∀ s, p s → Keeps p (f s)) :
    Keeps p (MonadState.get >>= f) := fun s hs => hf s hs s hs

/-- An outcome changes nothing, and what follows may rely on it. -/
theorem liftM_bind {o : Outcome α} {f : α → Step σ β} (hf : ∀ a, o = .ok a → Keeps p (f a)) :
    Keeps p ((liftM o : Step σ α) >>= f) := by
  intro s hs
  rw [run_bind, run_liftM]
  cases o with
  | ok a => exact hf a rfl s hs
  | error fault => exact hs

end Keeps

end Step

namespace ValueTree

open Step

variable {b : Backing}

theorem skipClear_keeps (length steps : Nat) : Keeps (·.BackedBy b) (skipClear length steps) := by
  induction steps with
  | zero => exact .pure _
  | succ steps ih =>
      unfold skipClear
      refine .get_bind fun t ht => .liftM_bind fun below _ => ?_
      split
      · refine .liftM_bind fun entry _ => .liftM_bind fun found _ => ?_
        split
        · exact .pure _
        · exact .liftM_bind fun cursor _ => .bind (.set ht) fun _ => ih
      · exact .pure _

/-- A tree whose value is simplified holds a value that is backed like the first. -/
theorem simplify_keeps : Keeps (·.BackedBy b) simplify := by
  unfold simplify
  refine .get_bind fun t ht => .liftM_bind fun count _ => .liftM_bind fun least _ => ?_
  split
  · exact .pure _
  · refine .liftM_bind fun length _ => .bind (skipClear_keeps length _) fun _ => ?_
    refine .get_bind fun t ht => .liftM_bind fun below _ => ?_
    split
    · exact .bind (.set ht) fun _ => .pure _
    · refine .bind (.set ht) fun _ => .liftM_bind fun held hheld => .liftM_bind fun cursor _ => ?_
      refine .bind (.set ⟨ht.1, ?_⟩) fun _ => .pure _
      rw [ht.1] at hheld
      exact Kind.backedBy_clear ht.2 hheld

/-- So does one whose last step is undone. -/
theorem complicate_keeps [Memory] : Keeps (·.BackedBy b) complicate := by
  unfold complicate
  refine .get_bind fun t ht => ?_
  split
  · exact .pure _
  · refine .bind (.set ht) fun _ => .liftM_bind fun held hheld => ?_
    refine .bind (.set ⟨ht.1, ?_⟩) fun _ => .pure _
    rw [ht.1] at hheld
    exact Kind.backedBy_set ht.2 hheld

/-- What a tree hands out is a copy of what it holds. -/
theorem current_backedBy [Memory] {t : ValueTree} {v : Datum} (ht : t.BackedBy b)
    (h : t.current = .ok v) : v.BackedBy b := by
  obtain ⟨hkind, s, hheld, hs⟩ := ht
  rw [current, hkind, hheld] at h
  exact ⟨s, (Except.ok.inj h).symm, hs⟩

end ValueTree

/-! ## A program and its ledger -/

/-- How a strategy over a kind is asked for. -/
inductive Plan
  | bounds (low high mask : Datum)
  | masked (mask : Datum)
  | sampled (size bits : Datum)

/-- The strategy that is asked for. -/
def Plan.over [Memory] (k : Kind) : Plan → Outcome Strategy
  | bounds low high mask => Strategy.ofBounds (.kind k) low high mask
  | masked mask => Strategy.ofMask (.kind k) mask
  | sampled size bits => Strategy.ofSize (.kind k) size bits

/-- The strategy that the family of growable sets makes, over a kind that it makes for it. -/
def Plan.call [Memory] (inForce backend : Datum) (plan : Plan) : Outcome Strategy := do
  plan.over (← Kind.varsizeOf inForce backend)

/-- The functions of the family do just that. -/
theorem Plan.call_eq [Memory] (inForce backend : Datum) :
    (∀ low high : Datum, Family.varsize.between inForce backend low high =
      call inForce backend (.bounds low high .absent)) ∧
    (∀ mask : Datum, Family.varsize.masked inForce backend mask =
      call inForce backend (.masked mask)) ∧
    ∀ size bits : Datum, Family.varsize.sampled inForce backend size bits =
      call inForce backend (.sampled size bits) :=
  ⟨fun _ _ => rfl, fun _ => rfl, fun _ _ => rfl⟩

/-- A program that works with growable sets: its settings, and all that it has made so far. -/
structure World where
  moment : Moment
  sets : List VarSet := []
  walks : List (Nat × VarSet.Walk) := []
  kinds : List Kind := []
  strategies : List Strategy := []
  trees : List ValueTree := []

/-- What a program does: it makes sets, kinds, strategies and trees, works on those it has, and acts
on its settings. Objects are meant by their number. -/
inductive Deed
  | act (a : Moment.Act)
  | make (maxBits backend : Datum)
  | gather (indices backend : Datum)
  | saturate (length backend : Datum)
  | copy (set : Nat)
  | set (set : Nat) (ix : Datum)
  | clear (set : Nat) (ix : Datum)
  | test (set : Nat) (ix : Datum)
  | walk (set : Nat)
  | next (walk : Nat)
  | kind (backend : Datum)
  | allocate (kind : Nat) (maxBits : Datum)
  | strategy (kind : Nat) (plan : Plan)
  | call (backend : Datum) (plan : Plan)
  | generate (strategy : Nat) (supply : Source.Supply)
  | simplify (tree : Nat)
  | complicate (tree : Nat)
  | current (tree : Nat)

/-- The backend that is handed over where something is made that has to be backed. -/
def Deed.backend? : Deed → Option Datum
  | make _ backend => some backend
  | gather _ backend => some backend
  | saturate _ backend => some backend
  | kind backend => some backend
  | call backend _ => some backend
  | _ => none

namespace World

/-- What is in force. -/
def inForce (w : World) : Datum := w.moment.session.inForce.value

/-- An object of a program, which there has to be. -/
def pick {α : Type} (xs : List α) (i : Nat) : Outcome α :=
  match xs[i]? with
  | some x => pure x
  | none => throw .missing

/-- A value of a kind of growable sets is a set of the program from now on. -/
def keep (w : World) (v : Datum) : Outcome (Outcome Datum × World) :=
  match v with
  | .varSet s => pure (.ok .absent, { w with sets := w.sets ++ [s] })
  | _ => throw .mismatch

/-- The reply to a deed, and the world after it. A step of a tree is done also where it fails, and
then the fault is the reply; every other deed that fails is not done. -/
def attempt [Memory] (w : World) : Deed → Outcome (Outcome Datum × World)
  | .act a => return (.ok .absent, { w with moment := a.perform w.moment })
  | .make maxBits backend => do w.keep (.varSet (← VarSet.make w.inForce maxBits backend))
  | .gather indices backend => do w.keep (.varSet (← VarSet.fromIndices w.inForce indices backend))
  | .saturate length backend => do w.keep (.varSet (← VarSet.saturated w.inForce length backend))
  | .copy i => do w.keep (.varSet (← pick w.sets i))
  | .set i ix => do
    return (.ok .absent, { w with sets := w.sets.set i (← (← pick w.sets i).setAt ix) })
  | .clear i ix => do
    return (.ok .absent, { w with sets := w.sets.set i (← (← pick w.sets i).clearAt ix) })
  | .test i ix => do return (.ok (.bool (← (← pick w.sets i).testAt ix)), w)
  | .walk i => do
    let _ ← pick w.sets i
    return (.ok .absent, { w with walks := w.walks ++ [(i, .fresh)] })
  | .next j => do
    let (i, walk) ← pick w.walks j
    let (found, after) := walk.next (← pick w.sets i)
    return (.ok ((found.map .nat).getD .absent), { w with walks := w.walks.set j (i, after) })
  | .kind backend => do
    return (.ok .absent, { w with kinds := w.kinds ++ [← Kind.varsizeOf w.inForce backend] })
  | .allocate i maxBits => do w.keep (← (← pick w.kinds i).allocate maxBits)
  | .strategy i plan => do
    return (.ok .absent, { w with strategies := w.strategies ++ [← plan.over (← pick w.kinds i)] })
  | .call backend plan => do
    return (.ok .absent, { w with strategies := w.strategies ++ [← plan.call w.inForce backend] })
  | .generate i supply => do
    return (.ok .absent,
      { w with trees := w.trees ++ [← ((← pick w.strategies i).newTreeFrom supply).1] })
  | .simplify i => do
    let (reply, after) := ValueTree.simplify.run (← pick w.trees i)
    return (reply.map .bool, { w with trees := w.trees.set i after })
  | .complicate i => do
    let (reply, after) := ValueTree.complicate.run (← pick w.trees i)
    return (reply.map .bool, { w with trees := w.trees.set i after })
  | .current i => do w.keep (← (← pick w.trees i).current)

/-- The reply to a deed, and the world after it. -/
def perform [Memory] (w : World) (d : Deed) : Outcome Datum × World :=
  match w.attempt d with
  | .ok done => done
  | .error fault => (.error fault, w)

/-- The world after several deeds. -/
def run [Memory] (w : World) (deeds : List Deed) : World :=
  deeds.foldl (fun w d => (w.perform d).2) w

/-- The world at the start, when nothing was made yet, at any moment of the settings. -/
def start (m : Moment) : World := { moment := m }

end World

/-- What backs the objects of a program, by their numbers. -/
structure Ledger where
  sets : List Backing := []
  kinds : List Backing := []
  strategies : List Backing := []
  trees : List Backing := []

namespace Ledger

/-- The entry for what a deed makes: what its backend names at this moment, or else the settings in
force, where the backing has to be chosen, and otherwise what backs the object it is made of. No
entry is ever changed. -/
def enter (l : Ledger) (inForce : Datum) : Deed → Ledger
  | .make _ backend | .gather _ backend | .saturate _ backend =>
    { l with sets := l.sets ++ (Backing.chosen inForce backend).toList }
  | .copy i => { l with sets := l.sets ++ l.sets[i]?.toList }
  | .kind backend => { l with kinds := l.kinds ++ (Backing.chosen inForce backend).toList }
  | .allocate i _ => { l with sets := l.sets ++ l.kinds[i]?.toList }
  | .strategy i _ => { l with strategies := l.strategies ++ l.kinds[i]?.toList }
  | .call backend _ =>
    { l with strategies := l.strategies ++ (Backing.chosen inForce backend).toList }
  | .generate i _ => { l with trees := l.trees ++ l.strategies[i]?.toList }
  | .current i => { l with sets := l.sets ++ l.trees[i]?.toList }
  | _ => l

/-- The ledger after a deed in a world. Nothing is entered for a deed that is not done. -/
def after [Memory] (l : Ledger) (w : World) (d : Deed) : Ledger :=
  match w.attempt d with
  | .ok _ => l.enter w.inForce d
  | .error _ => l

/-- The ledger after several deeds. -/
def record [Memory] (l : Ledger) (w : World) : List Deed → Ledger
  | [] => l
  | d :: rest => (l.after w d).record (w.perform d).2 rest

/-- One ledger is continued by another. -/
structure Continues (l later : Ledger) : Prop where
  sets : l.sets <+: later.sets
  kinds : l.kinds <+: later.kinds
  strategies : l.strategies <+: later.strategies
  trees : l.trees <+: later.trees

namespace Continues

variable {l m n : Ledger}

theorem refl (l : Ledger) : l.Continues l :=
  ⟨List.prefix_rfl, List.prefix_rfl, List.prefix_rfl, List.prefix_rfl⟩

theorem trans (h₁ : l.Continues m) (h₂ : m.Continues n) : l.Continues n :=
  ⟨h₁.sets.trans h₂.sets, h₁.kinds.trans h₂.kinds, h₁.strategies.trans h₂.strategies,
    h₁.trees.trans h₂.trees⟩

theorem enter (l : Ledger) (inForce : Datum) (d : Deed) : l.Continues (l.enter inForce d) := by
  cases d <;> constructor <;> first | exact List.prefix_rfl | exact List.prefix_append _ _

theorem after [Memory] (l : Ledger) (w : World) (d : Deed) : l.Continues (l.after w d) := by
  unfold Ledger.after
  split
  · exact enter l w.inForce d
  · exact refl l

theorem record [Memory] (l : Ledger) (w : World) (deeds : List Deed) :
    l.Continues (l.record w deeds) := by
  induction deeds generalizing l w with
  | nil => exact refl l
  | cons d rest ih => exact (after l w d).trans (ih _ _)

end Continues

end Ledger

/-! ## The ledger is right -/

namespace World

variable {w : World} {l : Ledger} {b : Backing}

/-- What backs the objects of a program is what its ledger says, for each of them. -/
structure Recorded (w : World) (l : Ledger) : Prop where
  sets : List.Forall₂ (fun s b => s.backing = b) w.sets l.sets
  kinds : List.Forall₂ (fun k b => k = .varsize b) w.kinds l.kinds
  strategies : List.Forall₂ (fun s b => s.kind? = some (.varsize b)) w.strategies l.strategies
  trees : List.Forall₂ (fun t b => t.BackedBy b) w.trees l.trees

/-- An object that is there has an entry, and may be replaced by another one of this entry. -/
theorem entry_of_pick {α β : Type} {r : α → β → Prop} {xs : List α} {ys : List β}
    (h : List.Forall₂ r xs ys) {i : Nat} {x : α} (hx : pick xs i = .ok x) :
    ∃ y, ys[i]? = some y ∧ r x y ∧ ∀ x', r x' y → List.Forall₂ r (xs.set i x') ys := by
  induction h generalizing i with
  | nil => cases hx
  | @cons a b _ _ hab hrest ih =>
      cases i with
      | zero =>
          obtain rfl : a = x := Except.ok.inj hx
          exact ⟨b, rfl, hab, fun x' hx' => .cons hx' hrest⟩
      | succ i =>
          obtain ⟨y, hy, hxy, hset⟩ := ih hx
          exact ⟨y, hy, hxy, fun x' hx' => .cons hab (hset x' hx')⟩

/-- A new object with a new entry. -/
theorem forall₂_snoc {α β : Type} {r : α → β → Prop} {xs : List α} {ys : List β}
    (h : List.Forall₂ r xs ys) {x : α} {y : β} (hxy : r x y) :
    List.Forall₂ r (xs ++ [x]) (ys ++ [y]) :=
  List.rel_append h (.cons hxy .nil)

/-- A value of a kind of growable sets that is kept is entered with what backs it. -/
theorem Recorded.keep (h : w.Recorded l) {v : Datum} (hv : v.BackedBy b)
    {done : Outcome Datum × World} (hdone : w.keep v = .ok done) :
    done.2.Recorded { l with sets := l.sets ++ [b] } := by
  obtain ⟨s, rfl, hs⟩ := hv
  cases hdone
  exact ⟨forall₂_snoc h.sets hs, h.kinds, h.strategies, h.trees⟩

/-- A new set that was made for a backend is entered with what the backend names. -/
theorem Recorded.keep_chosen (h : w.Recorded l) {backend : Datum} {s : VarSet}
    (hs : Backing.resolve w.inForce backend = .ok s.backing) {done : Outcome Datum × World}
    (hdone : w.keep (.varSet s) = .ok done) :
    done.2.Recorded { l with sets := l.sets ++ (Backing.chosen w.inForce backend).toList } := by
  rw [Backing.resolve_eq_ok_iff.mp hs]
  exact h.keep ⟨s, rfl, rfl⟩ hdone

/-- A set gives way to one with the same backing, and its entry stands. -/
theorem Recorded.put_set (h : w.Recorded l) {i : Nat} {s t : VarSet} (hs : pick w.sets i = .ok s)
    (ht : t.backing = s.backing) : Recorded { w with sets := w.sets.set i t } l := by
  obtain ⟨b, -, hsb, hreplace⟩ := entry_of_pick h.sets hs
  exact ⟨hreplace t (ht.trans hsb), h.kinds, h.strategies, h.trees⟩

/-- A tree gives way to one that is backed like it, and its entry stands. -/
theorem Recorded.put_tree (h : w.Recorded l) {i : Nat} {t t' : ValueTree}
    (ht : pick w.trees i = .ok t) (ht' : ∀ b, t.BackedBy b → t'.BackedBy b) :
    Recorded { w with trees := w.trees.set i t' } l := by
  obtain ⟨b, -, htb, hreplace⟩ := entry_of_pick h.trees ht
  exact ⟨h.sets, h.kinds, h.strategies, hreplace t' (ht' b htb)⟩

/-- A strategy is over the kind that it was asked for. -/
theorem kind?_of_over [Memory] {k : Kind} {plan : Plan} {s : Strategy} (h : plan.over k = .ok s) :
    s.kind? = some k := by
  have hbounds : ∀ {low high mask : Datum}, Strategy.ofBounds (.kind k) low high mask = .ok s →
      s.kind? = some k := by
    intro low high mask h
    simp only [Strategy.ofBounds, Outcome.bind_eq_ok_iff] at h
    obtain ⟨_, hkind, _, -, _, -, _, -, _, -, h⟩ := h
    cases hkind
    split at h
    · cases h
      rfl
    · simp only [Outcome.bind_eq_ok_iff] at h
      obtain ⟨_, -, _, -, h⟩ := h
      cases h
      rfl
  cases plan with
  | bounds low high mask => exact hbounds h
  | masked mask =>
      simp only [Plan.over, Strategy.ofMask, Outcome.bind_eq_ok_iff] at h
      obtain ⟨_, hkind, _, -, _, -, h⟩ := h
      cases hkind
      exact hbounds h
  | sampled size bits =>
      obtain ⟨_, _, rfl, -⟩ := Strategy.ofSize_eq_ok h
      rfl

/-- A kind that is made for a backend is backed by what the backend names. -/
theorem varsizeOf_eq_ok {inForce backend : Datum} {k : Kind}
    (h : Kind.varsizeOf inForce backend = .ok k) :
    ∃ b, Backing.chosen inForce backend = some b ∧ k = .varsize b := by
  obtain ⟨b, hb, h⟩ := Outcome.bind_eq_ok_iff.mp h
  exact ⟨b, Backing.resolve_eq_ok_iff.mp hb, (Except.ok.inj h).symm⟩

/-- After a deed that is done the ledger is right. -/
theorem attempt_recorded [Memory] (h : w.Recorded l) {d : Deed} {done : Outcome Datum × World}
    (hdone : w.attempt d = .ok done) : done.2.Recorded (l.enter w.inForce d) := by
  cases d with
  | act a =>
      cases hdone
      exact ⟨h.sets, h.kinds, h.strategies, h.trees⟩
  | make maxBits backend =>
      obtain ⟨s, hs, hkeep⟩ := Outcome.bind_eq_ok_iff.mp hdone
      exact h.keep_chosen (VarSet.backing_make hs) hkeep
  | gather indices backend =>
      obtain ⟨s, hs, hkeep⟩ := Outcome.bind_eq_ok_iff.mp hdone
      exact h.keep_chosen (VarSet.backing_fromIndices hs) hkeep
  | saturate length backend =>
      obtain ⟨s, hs, hkeep⟩ := Outcome.bind_eq_ok_iff.mp hdone
      exact h.keep_chosen (VarSet.backing_saturated hs) hkeep
  | copy i =>
      obtain ⟨s, hs, hkeep⟩ := Outcome.bind_eq_ok_iff.mp hdone
      obtain ⟨b, hb, hsb, -⟩ := entry_of_pick h.sets hs
      simp only [Ledger.enter, hb]
      exact h.keep ⟨s, rfl, hsb⟩ hkeep
  | set i ix =>
      simp only [attempt, Outcome.bind_eq_ok_iff] at hdone
      obtain ⟨s, hs, t, ht, hdone⟩ := hdone
      cases hdone
      exact h.put_set hs (VarSet.backing_setAt ht)
  | clear i ix =>
      simp only [attempt, Outcome.bind_eq_ok_iff] at hdone
      obtain ⟨s, hs, t, ht, hdone⟩ := hdone
      cases hdone
      exact h.put_set hs (VarSet.backing_clearAt ht)
  | test i ix =>
      simp only [attempt, Outcome.bind_eq_ok_iff] at hdone
      obtain ⟨s, -, found, -, hdone⟩ := hdone
      cases hdone
      exact h
  | walk i =>
      obtain ⟨s, -, hdone⟩ := Outcome.bind_eq_ok_iff.mp hdone
      cases hdone
      exact ⟨h.sets, h.kinds, h.strategies, h.trees⟩
  | next j =>
      simp only [attempt, Outcome.bind_eq_ok_iff] at hdone
      obtain ⟨walk, -, s, -, hdone⟩ := hdone
      cases hdone
      exact ⟨h.sets, h.kinds, h.strategies, h.trees⟩
  | kind backend =>
      obtain ⟨k, hk, hdone⟩ := Outcome.bind_eq_ok_iff.mp hdone
      cases hdone
      obtain ⟨b, hb, hkb⟩ := varsizeOf_eq_ok hk
      simp only [Ledger.enter, hb]
      exact ⟨h.sets, forall₂_snoc h.kinds hkb, h.strategies, h.trees⟩
  | allocate i maxBits =>
      simp only [attempt, Outcome.bind_eq_ok_iff] at hdone
      obtain ⟨k, hk, v, hv, hkeep⟩ := hdone
      obtain ⟨b, hb, rfl, -⟩ := entry_of_pick h.kinds hk
      simp only [Ledger.enter, hb]
      exact h.keep (Kind.backedBy_allocate hv) hkeep
  | strategy i plan =>
      simp only [attempt, Outcome.bind_eq_ok_iff] at hdone
      obtain ⟨k, hk, s, hs, hdone⟩ := hdone
      cases hdone
      obtain ⟨b, hb, rfl, -⟩ := entry_of_pick h.kinds hk
      simp only [Ledger.enter, hb]
      exact ⟨h.sets, h.kinds, forall₂_snoc h.strategies (kind?_of_over hs), h.trees⟩
  | call backend plan =>
      simp only [attempt, Plan.call, Outcome.bind_eq_ok_iff] at hdone
      obtain ⟨s, ⟨k, hk, hs⟩, hdone⟩ := hdone
      cases hdone
      obtain ⟨b, hb, rfl⟩ := varsizeOf_eq_ok hk
      simp only [Ledger.enter, hb]
      exact ⟨h.sets, h.kinds, forall₂_snoc h.strategies (kind?_of_over hs), h.trees⟩
  | generate i supply =>
      simp only [attempt, Outcome.bind_eq_ok_iff] at hdone
      obtain ⟨s, hs, tree, htree, hdone⟩ := hdone
      cases hdone
      obtain ⟨b, hb, hkind, -⟩ := entry_of_pick h.strategies hs
      simp only [Ledger.enter, hb]
      exact ⟨h.sets, h.kinds, h.strategies,
        forall₂_snoc h.trees (Strategy.newTreeFrom_backedBy hkind htree)⟩
  | simplify i =>
      obtain ⟨t, ht, hdone⟩ := Outcome.bind_eq_ok_iff.mp hdone
      cases hdone
      exact h.put_tree ht fun b htb => ValueTree.simplify_keeps t htb
  | complicate i =>
      obtain ⟨t, ht, hdone⟩ := Outcome.bind_eq_ok_iff.mp hdone
      cases hdone
      exact h.put_tree ht fun b htb => ValueTree.complicate_keeps t htb
  | current i =>
      simp only [attempt, Outcome.bind_eq_ok_iff] at hdone
      obtain ⟨t, ht, v, hv, hkeep⟩ := hdone
      obtain ⟨b, hb, htb, -⟩ := entry_of_pick h.trees ht
      simp only [Ledger.enter, hb]
      exact h.keep (ValueTree.current_backedBy htb hv) hkeep

/-- After every deed the ledger is right. -/
theorem perform_recorded [Memory] (h : w.Recorded l) (d : Deed) :
    (w.perform d).2.Recorded (l.after w d) := by
  unfold perform Ledger.after
  cases hdone : w.attempt d with
  | ok done => exact attempt_recorded h hdone
  | error fault => exact h

/-- So it is after any number of them. -/
theorem run_recorded [Memory] (h : w.Recorded l) (deeds : List Deed) :
    (w.run deeds).Recorded (l.record w deeds) := by
  induction deeds generalizing w l with
  | nil => exact h
  | cons d rest ih => exact ih (perform_recorded h d)

/-- The sets are backed as the ledger says, one by one. -/
theorem Recorded.map_backing (h : w.Recorded l) : w.sets.map VarSet.backing = l.sets := by
  rw [← List.forall₂_eq_eq_eq, List.forall₂_map_left_iff]
  exact h.sets

/-- Where the backend names nothing that can back a growable set, nothing is made. -/
theorem perform_unbacked [Memory] {d : Deed} {backend : Datum} (hd : d.backend? = some backend)
    (hnone : Backing.chosen w.inForce backend = none) :
    ∃ fault, w.perform d = (.error fault, w) := by
  have hunresolved : ∀ b, Backing.resolve w.inForce backend ≠ .ok b := by
    intro b hb
    cases hnone.symm.trans (Backing.resolve_eq_ok_iff.mp hb)
  unfold perform
  cases hdone : w.attempt d with
  | error fault => exact ⟨fault, rfl⟩
  | ok done =>
      exfalso
      cases d with
      | make maxBits backend =>
          cases hd
          obtain ⟨s, hs, -⟩ := Outcome.bind_eq_ok_iff.mp hdone
          exact hunresolved _ (VarSet.backing_make hs)
      | gather indices backend =>
          cases hd
          obtain ⟨s, hs, -⟩ := Outcome.bind_eq_ok_iff.mp hdone
          exact hunresolved _ (VarSet.backing_fromIndices hs)
      | saturate length backend =>
          cases hd
          obtain ⟨s, hs, -⟩ := Outcome.bind_eq_ok_iff.mp hdone
          exact hunresolved _ (VarSet.backing_saturated hs)
      | kind backend =>
          cases hd
          obtain ⟨k, hk, -⟩ := Outcome.bind_eq_ok_iff.mp hdone
          obtain ⟨b, hb, -⟩ := varsizeOf_eq_ok hk
          cases hnone.symm.trans hb
      | call backend plan =>
          cases hd
          simp only [attempt, Plan.call, Outcome.bind_eq_ok_iff] at hdone
          obtain ⟨s, ⟨k, hk, -⟩, -⟩ := hdone
          obtain ⟨b, hb, -⟩ := varsizeOf_eq_ok hk
          cases hnone.symm.trans hb
      | _ => cases hd

/-- What backs an object is settled when it is made, and stays so. Whatever a program does, each of
its sets, of its kinds, of its strategies and of its trees is backed as the ledger says, and
whatever it does later, what the ledger says of them stays. Where the backend, or else the settings
in force, name a kind of fixed width, or of growable sets, or nothing at all, nothing is made. -/
theorem backings_recorded [Memory] (m : Moment) (deeds more : List Deed) :
    let w := (start m).run deeds
    let l := Ledger.record {} (start m) deeds
    w.Recorded l ∧ (w.run more).Recorded (l.record w more) ∧ l.Continues (l.record w more) ∧
      w.sets.map VarSet.backing <+: (w.run more).sets.map VarSet.backing ∧
      (∀ (d : Deed) (backend : Datum), d.backend? = some backend →
        Backing.chosen w.inForce backend = none → ∃ fault, w.perform d = (.error fault, w)) ∧
      ∀ k : Kind, k.width?.isSome ∨ (∃ b, k = .varsize b) →
        (∀ inForce, Backing.chosen inForce (.kind k) = none) ∧
        ∀ c : Settings, c.bitsetBackend = .kind k →
          Backing.chosen (.settings c) .absent = none := by
  intro w l
  have hstart : (start m).Recorded {} := ⟨.nil, .nil, .nil, .nil⟩
  have hnow : w.Recorded l := run_recorded hstart deeds
  have hlater := run_recorded hnow more
  have hcontinues := Ledger.Continues.record l w more
  refine ⟨hnow, hlater, hcontinues, ?_, fun d backend => perform_unbacked, fun k hk => ⟨?_, ?_⟩⟩
  · rw [hnow.map_backing, hlater.map_backing]
    exact hcontinues.sets
  · exact Backing.chosen_kind_eq_none hk
  · intro c hc
    simp only [Backing.chosen, hc]
    exact Backing.chosen_kind_eq_none hk .absent

attribute [local instance] Memory.small

/-- A set, and one that is made and a copy of the first inside a block with the other backing in
force, and one that is made when the block is over. -/
example :
    let packed : Settings := { Settings.plain with bitsetBackend := .text "bitarray" }
    let deeds : List Deed := [.make (.nat 2) .absent, .act (.enter (.settings packed)),
      .gather (.list [.nat 3]) .absent, .copy 0, .act .leave, .make (.nat 0) .absent]
    ((start .initial).run deeds).sets.map VarSet.backing =
      [.boolVec, .bitArray, .boolVec, .boolVec] := rfl

end World

end FlagSets
