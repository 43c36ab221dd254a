import Repkgs.Jigd.Store
import Repkgs.Lib.Runs

/-!
# What a step of the store can do

Every operation is a chain of effects, each of them one system call on the
directories together with the change of the tables that goes with it. A process
killed inside an operation has made a first part of the chain. The invariants of
the store are proved once for each effect.
-/

namespace Repkgs.Jigd

open Lib

/-- A running store and its directories. -/
structure World where
  store : Store
  disk : Disk

def Outcome.world (o : Outcome Store) (d : Disk) : World := ⟨o.state, d.applyAll o.ops⟩

/-- The operations of one process lifetime. `move` is `moveDown` of a pack other
than the active one, whichever `victim` picks. -/
inductive Op
  | put (key : Bytes) (size : Int) (r : Bytes) (now : Int) (io : PutIO)
  | get (key : Bytes) (now : Int)
  | move (id : Nat) (io : MoveIO)

/-- The outcome of an operation; a move needs a pack that is not being written. -/
def World.outcome (w : World) : Op → Option (Outcome Store)
  | .put key size r now io => some (w.store.put w.disk key size r now io)
  | .get key now => some (w.store.touch key now)
  | .move id io =>
      if id = w.store.active then none
      else (w.store.packs.lookup id).map fun p => w.store.moveDown w.disk p io

theorem World.outcome_move {w : World} {id : Nat} {io : MoveIO} {o : Outcome Store}
    (h : w.outcome (.move id io) = some o) : id ≠ w.store.active ∧
      ∃ p, w.store.packs.lookup id = some p ∧ w.store.moveDown w.disk p io = o := by
  obtain ⟨hne, h⟩ := Option.ite_none_left_eq_some.mp h
  exact ⟨hne, Option.map_eq_some_iff.mp h⟩

def World.step (w : World) (op : Op) : Option World :=
  (w.outcome op).map fun o => o.world w.disk

/-- What `Get` answers: nothing, or the bytes its reader delivers. -/
def World.answer (w : World) (key : Bytes) : Option (Option Bytes) :=
  (w.store.get key).map fun r => r.bytes w.disk

/-- What an operation did to the contents: a value was stored in a pack, or a
pack was deleted. -/
inductive Event
  | stored (key body : Bytes) (pack : Nat)
  | evicted (pack : Nat)
  deriving DecidableEq

def World.events (w : World) : Op → List Event
  | .put key size r now io =>
      let o := w.store.put w.disk key size r now io
      if o.ok then [.stored key (r.take size.toNat) o.state.active] else []
  | .get _ _ => []
  | .move id _ =>
      match w.store.packs.lookup id with
      | none => []
      | some p => if p.tier + 1 = w.store.tiers.length then [.evicted id] else []

/-- The events of a run. -/
def World.history (w : World) : List Op → List Event
  | [] => []
  | op :: ops =>
      match w.step op with
      | none => []
      | some w' => w.events op ++ w'.history ops

theorem World.history_append {w w' : World} {ops : List Op} (h : run World.step w ops = some w')
    (ops' : List Op) : w.history (ops ++ ops') = w.history ops ++ w'.history ops' := by
  induction ops generalizing w with
  | nil =>
      cases h
      rfl
  | cons op ops ih =>
      obtain ⟨u, hu, hrest⟩ := run_cons_eq_some.mp h
      simp only [List.cons_append, World.history, hu, ih hrest, List.append_assoc]

/-- Where a pack stands, without the bookkeeping of reads. -/
structure Place where
  id : Nat
  tier : Nat
  size : Nat
  deriving DecidableEq, Repr

def Pack.place (p : Pack) : Place := ⟨p.id, p.tier, p.size⟩

def Core.place? (c : Core) (id : Nat) : Option Place := (c.packs.lookup id).map Pack.place

structure SameTables (s s' : Store) : Prop where
  index : s'.index = s.index
  place : ∀ id, s'.place? id = s.place? id
  active : s'.active = s.active
  tiers : s'.tiers.length = s.tiers.length

structure SameFiles (d d' : Disk) : Prop where
  bytes : ∀ t id, d'.bytes? t id = d.bytes? t id
  hint : ∀ t id, d'.hint? t id = d.hint? t id

/-- A record `Put` admits, at a place in the active pack where it may stand. -/
structure Admitted (a : Place) (r : Record) : Prop where
  key_le : r.key.length ≤ 4096
  value_le : r.value.length ≤ 2 * 2 ^ 30
  fits : a.size + r.write.length ≤ packLimit ∨ a.size = 0

/-- The effects. Pack ids stay below `bound`; with `clean`, whatever stands
behind the last record of the active pack is a part of the record being written. -/
inductive Effect (bound : Nat) (clean : Prop) : World → List Event → World → Prop
  | idle {s s' : Store} {d d' : Disk} (ht : SameTables s s') (hf : SameFiles d d') :
      Effect bound clean ⟨s, d⟩ [] ⟨s', d'⟩
  | writeHint {s : Store} {d : Disk} {a : Place} (ha : s.place? s.active = some a)
      (order : Shuffle) :
      Effect bound clean ⟨s, d⟩ []
        ⟨s, FileOp.apply d (.putHint a.tier a.id (hintOf s.index a.id order))⟩
  | start {s s' : Store} {d : Disk} (now : Int) (hbound : s.active + 1 < bound)
      (hfree : d.bytes? 0 (s.active + 1) = none)
      (hhint : ∃ order, d.hint? 0 s.active = some (hintOf s.index s.active order))
      (hindex : s'.index = s.index)
      (hactive : s'.active = s.active + 1) (htiers : s'.tiers.length = s.tiers.length)
      (hplace : ∀ id, s'.place? id =
        if id = s.active + 1 then some ⟨s.active + 1, 0, 0⟩ else s.place? id) :
      Effect bound clean ⟨s, d⟩ [] ⟨s', FileOp.apply d (.create 0 (s.active + 1) now)⟩
  | scribble {s : Store} {d : Disk} {a : Place} {r : Record} {data : Bytes} (now : Int)
      (ha : s.place? s.active = some a) (hr : Admitted a r)
      (hpre : data <+: r.write) (hne : data ≠ r.write)
      (hclean : clean → ∀ bs, d.bytes? a.tier a.id = some bs → bs.drop a.size <+: data) :
      Effect bound clean ⟨s, d⟩ []
        ⟨s, FileOp.apply d (.write a.tier a.id a.size data now)⟩
  | truncate {s : Store} {d : Disk} {a : Place} (now : Int)
      (ha : s.place? s.active = some a) :
      Effect bound clean ⟨s, d⟩ [] ⟨s, FileOp.apply d (.truncate a.tier a.id a.size now)⟩
  | append {s s' : Store} {d : Disk} {a : Place} {r : Record} (now : Int)
      (ha : s.place? s.active = some a) (hr : Admitted a r)
      (hclean : clean → ∀ bs, d.bytes? a.tier a.id = some bs → bs.drop a.size <+: r.write)
      (hindex : s'.index = s.index.insert r.key
        ⟨a.id, a.size + recHeader + r.key.length, r.value.length⟩)
      (hactive : s'.active = s.active) (htiers : s'.tiers.length = s.tiers.length)
      (hplace : ∀ id, s'.place? id = if id = s.active then
        some { a with size := a.size + r.write.length } else s.place? id) :
      Effect bound clean ⟨s, d⟩ [.stored r.key r.value s.active]
        ⟨s', FileOp.apply d (.write a.tier a.id a.size r.write now)⟩
  | linkPack {s : Store} {d : Disk} {id : Nat} {p : Place} (hp : s.place? id = some p)
      (hne : id ≠ s.active) (hlow : p.tier + 1 < s.tiers.length) :
      Effect bound clean ⟨s, d⟩ [] ⟨s, FileOp.apply d (.linkPack p.tier p.id)⟩
  | linkHint {s : Store} {d : Disk} {id : Nat} {p : Place} (hp : s.place? id = some p)
      (hne : id ≠ s.active) (hcopy : (d.bytes? (p.tier + 1) p.id).isSome) :
      Effect bound clean ⟨s, d⟩ [] ⟨s, FileOp.apply d (.linkHint p.tier p.id)⟩
  | switch {s s' : Store} {d : Disk} {id : Nat} {p : Place} (hp : s.place? id = some p)
      (hne : id ≠ s.active) (hcopy : (d.bytes? (p.tier + 1) p.id).isSome)
      (hhint : (d.hint? (p.tier + 1) p.id).isSome)
      (hindex : s'.index = s.index) (hactive : s'.active = s.active)
      (htiers : s'.tiers.length = s.tiers.length)
      (hplace : ∀ i, s'.place? i =
        if i = id then some { p with tier := p.tier + 1 } else s.place? i) :
      Effect bound clean ⟨s, d⟩ [] ⟨s', FileOp.apply d (.removePack p.tier p.id)⟩
  | evict {s s' : Store} {d : Disk} {id : Nat} {p : Place} (hp : s.place? id = some p)
      (hne : id ≠ s.active) (hlast : d.bytes? (p.tier + 1) p.id = none)
      (hindex : ∀ key, s'.index.lookup key =
        (s.index.lookup key).filter fun l => l.pack != id)
      (hactive : s'.active = s.active) (htiers : s'.tiers.length = s.tiers.length)
      (hplace : ∀ i, s'.place? i = if i = id then none else s.place? i) :
      Effect bound clean ⟨s, d⟩ [.evicted id] ⟨s', FileOp.apply d (.removePack p.tier p.id)⟩
  | removeHint {s : Store} {d : Disk} {t id : Nat}
      (hgone : ∀ p, s.place? id = some p → t < p.tier) (hfile : d.bytes? t id = none) :
      Effect bound clean ⟨s, d⟩ [] ⟨s, FileOp.apply d (.removeHint t id)⟩

/-- Effects one after the other. -/
inductive Chain (bound : Nat) (clean : Prop) : World → List Event → World → Prop
  | nil (w : World) : Chain bound clean w [] w
  | cons {w w' w'' : World} {es es' : List Event} (h : Effect bound clean w es w')
      (hs : Chain bound clean w' es' w'') : Chain bound clean w (es ++ es') w''

end Repkgs.Jigd
