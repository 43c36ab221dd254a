import Repkgs.Jigd.Placement

/-!
# Operations as chains of effects

Each operation of the store carries out a chain of effects, and so does every
first part of its system calls.
-/

namespace Repkgs.Jigd

open Lib

variable {bound : Nat} {clean : Prop}

theorem SameTables.refl (s : Store) : SameTables s s := ⟨rfl, fun _ => rfl, rfl, rfl⟩

theorem SameFiles.refl (d : Disk) : SameFiles d d := ⟨fun _ _ => rfl, fun _ _ => rfl⟩

theorem Chain.single {w w' : World} {es : List Event} (h : Effect bound clean w es w') :
    Chain bound clean w es w' := by
  simpa using Chain.cons h (Chain.nil w')

theorem Chain.trans {w w' w'' : World} {es es' : List Event} (h : Chain bound clean w es w')
    (h' : Chain bound clean w' es' w'') : Chain bound clean w (es ++ es') w'' := by
  induction h with
  | nil => exact h'
  | cons he _ ih =>
      rw [List.append_assoc]
      exact Chain.cons he (ih h')

/-- No value was stored. -/
def Quiet (es : List Event) : Prop := ∀ key body id, .stored key body id ∉ es

theorem quiet_nil : Quiet [] := fun _ _ _ => List.not_mem_nil

theorem Quiet.append {es es' : List Event} (h : Quiet es) (h' : Quiet es') :
    Quiet (es ++ es') := by
  intro key body id hmem
  rcases List.mem_append.mp hmem with hin | hin
  · exact h key body id hin
  · exact h' key body id hin

/-- The operation with outcome `o` makes the effects with events `es`; as long
as system calls are left to make, the files are those of a chain of effects
that has not stored a value yet. -/
structure Executes (bound : Nat) (clean : Prop) (w : World) (o : Outcome Store)
    (es : List Event) : Prop where
  full : Chain bound clean w es (o.world w.disk)
  part : ∀ n < o.ops.length, ∃ es' w', Quiet es' ∧ Chain bound clean w es' w' ∧
    SameFiles w'.disk (w.disk.applyAll (o.ops.take n))

namespace Executes

variable {s s' s₁ : Store} {d d₁ : Disk} {op : FileOp} {es : List Event}

theorem nil (h : SameTables s s') (ok : Bool) :
    Executes bound clean ⟨s, d⟩ ⟨s', [], ok⟩ [] where
  full := Chain.single (Effect.idle h (SameFiles.refl d))
  part n hn := absurd hn (Nat.not_lt_zero n)

/-- The last system call with its effect. -/
theorem last (he : Effect bound clean ⟨s, d⟩ es ⟨s₁, d₁⟩) (hsame : SameFiles d₁ (op.apply d))
    (ok : Bool) : Executes bound clean ⟨s, d⟩ ⟨s₁, [op], ok⟩ es := by
  have hmove : Effect bound clean ⟨s₁, d₁⟩ [] ⟨s₁, op.apply d⟩ :=
    Effect.idle (SameTables.refl s₁) hsame
  constructor
  · have hall := Chain.cons he (Chain.single hmove)
    rw [List.append_nil] at hall
    exact hall
  · intro n hn
    have hzero : n = 0 := Nat.lt_one_iff.mp hn
    subst hzero
    exact ⟨[], ⟨s, d⟩, quiet_nil, Chain.nil _, SameFiles.refl d⟩

/-- One system call with its effect, then the rest of the operation. -/
theorem consQuiet {ops : List FileOp} {ok : Bool} {es es' : List Event} (hquiet : Quiet es)
    (he : Effect bound clean ⟨s, d⟩ es ⟨s₁, d₁⟩) (hsame : SameFiles d₁ (op.apply d))
    (hrest : Executes bound clean ⟨s₁, op.apply d⟩ ⟨s', ops, ok⟩ es') :
    Executes bound clean ⟨s, d⟩ ⟨s', op :: ops, ok⟩ (es ++ es') := by
  have hmove : Effect bound clean ⟨s₁, d₁⟩ [] ⟨s₁, op.apply d⟩ :=
    Effect.idle (SameTables.refl s₁) hsame
  refine ⟨Chain.cons he (Chain.cons hmove hrest.full), ?_⟩
  intro n hn
  cases n with
  | zero => exact ⟨[], ⟨s, d⟩, quiet_nil, Chain.nil _, SameFiles.refl d⟩
  | succ n =>
      obtain ⟨es₁, w', hes₁, hchain, hfiles⟩ := hrest.part n (Nat.lt_of_succ_lt_succ hn)
      exact ⟨es ++ es₁, w', hquiet.append hes₁, Chain.cons he (Chain.cons hmove hchain), hfiles⟩

/-- `consQuiet` for an effect without events. -/
theorem cons {ops : List FileOp} {ok : Bool} (he : Effect bound clean ⟨s, d⟩ [] ⟨s₁, d₁⟩)
    (hsame : SameFiles d₁ (op.apply d))
    (hrest : Executes bound clean ⟨s₁, op.apply d⟩ ⟨s', ops, ok⟩ es) :
    Executes bound clean ⟨s, d⟩ ⟨s', op :: ops, ok⟩ es :=
  consQuiet quiet_nil he hsame hrest

/-- One operation after another that stores nothing. -/
theorem append {w : World} {o o' : Outcome Store} {es : List Event}
    (h : Executes bound clean w o []) (h' : Executes bound clean (o.world w.disk) o' es) :
    Executes bound clean w ⟨o'.state, o.ops ++ o'.ops, o'.ok⟩ es := by
  have hworld : Outcome.world ⟨o'.state, o.ops ++ o'.ops, o'.ok⟩ w.disk =
      o'.world (o.world w.disk).disk := by
    simp only [Outcome.world, Disk.applyAll_append]
  refine ⟨hworld ▸ h.full.trans h'.full, ?_⟩
  intro n hn
  rcases Nat.lt_or_ge n o.ops.length with hlt | hge
  · obtain ⟨es₁, w', hes₁, hchain, hfiles⟩ := h.part n hlt
    refine ⟨es₁, w', hes₁, hchain, ?_⟩
    rw [List.take_append_of_le_length (Nat.le_of_lt hlt)]
    exact hfiles
  · rw [List.length_append] at hn
    obtain ⟨es₁, w', hes₁, hchain, hfiles⟩ := h'.part (n - o.ops.length) (by omega)
    refine ⟨es₁, w', hes₁, h.full.trans hchain, ?_⟩
    rw [List.take_append, List.take_of_length_le hge, Disk.applyAll_append]
    exact hfiles

end Executes

theorem lookup_adjust_place (packs : Map Nat Pack) (id i : Nat) {f : Pack → Pack}
    {g : Place → Place} (hf : ∀ p, (f p).place = g p.place) :
    ((Map.adjust packs id f).lookup i).map Pack.place =
      if i = id then ((packs.lookup i).map Pack.place).map g
      else (packs.lookup i).map Pack.place := by
  rw [Map.lookup_adjust]
  split
  · simp only [Option.map_map, Function.comp_def, hf]
  · rfl

/-- Bookkeeping of reads and live bytes moves no pack. -/
theorem lookup_adjust_same (packs : Map Nat Pack) (id i : Nat) {f : Pack → Pack}
    (hf : ∀ p, (f p).place = p.place) :
    ((Map.adjust packs id f).lookup i).map Pack.place = (packs.lookup i).map Pack.place := by
  rw [lookup_adjust_place packs id i (g := fun p => p) hf]
  simp [Function.comp_def]

theorem sameFiles_chtimes (d : Disk) (t id : Nat) (mtime : Int) :
    SameFiles d (FileOp.apply d (.chtimes t id mtime)) :=
  ⟨fun _ _ => bytes?_chtimes _ _ _ _ _ _, fun _ _ => hint?_chtimes _ _ _ _ _ _⟩

theorem touch_executes (w : World) (key : Bytes) (now : Int) :
    Executes bound clean w (w.store.touch key now) [] := by
  unfold Store.touch
  cases (w.store.index.lookup key).bind fun l => w.store.packs.lookup l.pack with
  | none => exact Executes.nil (SameTables.refl _) _
  | some p =>
      simp only
      generalize decide (touchEvery < now - p.touched) = due
      have htables : SameTables w.store { w.store with
          packs := Map.adjust w.store.packs p.id fun p =>
            { p with used := now, touched := if due then now else p.touched } } :=
        ⟨rfl, fun i => lookup_adjust_same _ _ i fun _ => rfl, rfl, rfl⟩
      cases due with
      | false => exact Executes.nil htables _
      | true =>
          exact Executes.cons (Effect.idle htables (SameFiles.refl _))
            (sameFiles_chtimes _ _ _ _) (Executes.nil (SameTables.refl _) _)

/-- Nothing stands behind the last record of the active pack. -/
def Clean (w : World) : Prop :=
  ∀ a bs, w.store.place? w.store.active = some a →
    w.disk.bytes? a.tier a.id = some bs → bs.length ≤ a.size

variable {w : World} {c : Core} {id : Nat} {d : Disk} {now : Int} {a : Place}
  {key body bs : Bytes} {s : Store} {io : PutIO}

theorem place?_eq_some {p : Pack} (h : c.packs.lookup id = some p) :
    c.place? id = some p.place := by
  simp only [Core.place?, h, Option.map_some]

theorem of_place?_eq_some {p : Place} (h : c.place? id = some p) :
    ∃ q, c.packs.lookup id = some q ∧ q.place = p :=
  Option.map_eq_some_iff.mp h

/-- The next id does not wrap around. -/
theorem u32_of_lt {n : Nat} (h : n < 2 ^ 32) : u32 n = n := Nat.mod_eq_of_lt h

/-- A pack is started only where no file is. -/
theorem of_startPack {c c' : Core} {fails : Bool} (h : c.startPack d id now fails = some c') :
    d.bytes? 0 id = none ∧ c' = { c with packs := c.packs.insert id ⟨id, 0, 0, 0, now, now⟩ } := by
  unfold Core.startPack at h
  split at h
  · cases h
  · next hfree =>
      have hnone : d.pack? 0 id = none := by
        cases hp : d.pack? 0 id with
        | none => rfl
        | some f => exact absurd (by simp [hp]) hfree
      exact ⟨by simp [Disk.bytes?, hnone], (Option.some.inj h).symm⟩

theorem place?_insert (c : Core) (p : Pack) (id i : Nat) :
    Core.place? { c with packs := c.packs.insert id p } i =
      if i = id then some p.place else c.place? i := by
  simp only [Core.place?, Map.lookup_insert_eq]
  split <;> rfl

theorem rotate_executes (hw : Placed w) (hbound : w.store.active + 1 < bound)
    (hmax : bound ≤ 2 ^ 32) (now : Int) (io : PutIO) :
    Executes bound clean w (w.store.rotate w.disk now io) [] := by
  obtain ⟨a₀, -, ha₀, htier, -⟩ := hw.active
  obtain ⟨a, ha, rfl⟩ := of_place?_eq_some ha₀
  have haid : a.id = w.store.active := hw.id_eq ha₀
  have hatier : a.tier = 0 := htier
  have hid : u32 (w.store.active + 1) = w.store.active + 1 := u32_of_lt (by omega)
  have hseal : Effect bound clean w [] ⟨w.store, FileOp.apply w.disk (w.store.seal a io.order)⟩ :=
    Effect.writeHint (place?_eq_some ha) io.order
  simp only [Store.rotate, ha, hid]
  split
  · exact Executes.nil (SameTables.refl _) _
  · cases hstart : w.store.startPack w.disk (w.store.active + 1) now io.createFails with
    | none => exact Executes.cons hseal (SameFiles.refl _) (Executes.nil (SameTables.refl _) _)
    | some c =>
        obtain ⟨hfree, rfl⟩ := of_startPack hstart
        refine Executes.cons hseal (SameFiles.refl _) (Executes.cons
          (Effect.start now hbound ?_ ?_ ?_ ?_ ?_ ?_) (SameFiles.refl _)
          (Executes.nil (SameTables.refl _) _))
        · exact hfree
        · exact ⟨io.order, by simp [Core.seal, haid, hatier]⟩
        · rfl
        · rfl
        · rfl
        · exact place?_insert _ _ _

theorem Record.header_length (key : Bytes) (size : Nat) :
    (Record.header key size).length = recHeader + key.length := by
  simp only [Record.header, List.length_append, leBytes_length, recHeader]

theorem Record.write_length (r : Record) :
    r.write.length = recHeader + r.key.length + r.value.length := by
  rw [Record.write, List.length_append, Record.header_length]

/-- No offset or length that `Put` computes in `uint32` wraps. -/
theorem Admitted.loc_eq (h : Admitted a ⟨key, body⟩) :
    (⟨a.id, u32 (u32 a.size + recHeader + u32 key.length), u32 body.length⟩ : Loc) =
      ⟨a.id, a.size + recHeader + key.length, body.length⟩ := by
  have hkey : key.length ≤ 4096 := h.key_le
  have hbody : body.length ≤ 2 * 2 ^ 30 := h.value_le
  have hfit := h.fits
  simp only [Record.write_length, packLimit] at hfit
  have hsize : a.size + recHeader + key.length < 2 ^ 32 := by
    simp only [recHeader] at hfit ⊢
    omega
  rw [u32_of_lt (n := body.length) (by omega), u32_of_lt (n := key.length) (by omega),
    u32_of_lt (n := a.size) (by omega), u32_of_lt hsize]

theorem record_place? {a : Pack} (ha : s.packs.lookup s.active = some a) (hid : a.id = s.active)
    (key body : Bytes) (id : Nat) :
    (s.record a key body).place? id =
      if id = s.active then
        some ⟨a.id, a.tier, a.size + (recHeader + key.length + body.length)⟩
      else s.place? id := by
  have hlive : ((s.unlive key).lookup id).map Pack.place = s.place? id := by
    unfold Core.unlive
    cases s.index.lookup key with
    | none => rfl
    | some old => exact lookup_adjust_same _ _ _ fun _ => rfl
  unfold Store.record
  rw [Core.place?, lookup_adjust_place _ _ _ (g := fun p =>
    { p with size := p.size + (recHeader + key.length + body.length) }) fun _ => rfl, hlive, hid]
  split
  · next heq =>
      rw [heq, place?_eq_some ha, ← hid]
      rfl
  · rfl

/-- A record written in two parts is written at once. -/
theorem sameFiles_write {t id off : Nat} (hbs : d.bytes? t id = some bs) (hle : off ≤ bs.length)
    (x y : Bytes) (now : Int) :
    SameFiles
      (FileOp.apply (FileOp.apply d (.write t id off x now)) (.write t id off (x ++ y) now))
      (FileOp.apply (FileOp.apply d (.write t id off x now))
        (.write t id (off + x.length) y now)) := by
  refine ⟨?_, fun _ _ => rfl⟩
  intro t' id'
  simp only [bytes?_write]
  split
  · next heq =>
      obtain ⟨rfl, rfl⟩ := Prod.mk.inj heq
      rw [hbs]
      simp only [Option.map_some, writeAt_writeAt hle, writeAt_overwrite hle]
  · rfl

theorem undo_executes (ha : s.place? s.active = some a) (fails : Bool) (now : Int) :
    Executes bound clean ⟨s, d⟩
      ⟨s, if fails then [] else [FileOp.truncate a.tier a.id a.size now], false⟩ [] := by
  cases fails with
  | true => exact Executes.nil (SameTables.refl s) _
  | false =>
      exact Executes.cons (Effect.truncate now ha) (SameFiles.refl _)
        (Executes.nil (SameTables.refl s) _)

/-- What `append` reports as stored. -/
def appendEvents (s : Store) (key body : Bytes) (o : Outcome Store) : List Event :=
  if o.ok then [.stored key body s.active] else []

theorem Clean.drop_eq_nil (h : Clean w) (ha : w.store.place? w.store.active = some a)
    (hbs : w.disk.bytes? a.tier a.id = some bs) :
    bs.drop a.size = [] :=
  List.drop_eq_nil_of_le (h a bs ha hbs)

/-- In a clean pack the header stands alone once it is written. -/
theorem Clean.drop_header (h : Clean w)
    (ha : w.store.place? w.store.active = some a) (hbs : w.disk.bytes? a.tier a.id = some bs)
    (hle : a.size ≤ bs.length) (hdr : Bytes) (now : Int) {bs' : Bytes}
    (hbs' : (FileOp.apply w.disk (.write a.tier a.id a.size hdr now)).bytes? a.tier a.id =
      some bs') : bs'.drop a.size = hdr := by
  rw [bytes?_write, if_pos rfl, hbs] at hbs'
  have heq : writeAt bs a.size hdr = bs' := Option.some.inj hbs'
  have hnil := h.drop_eq_nil ha hbs
  obtain ⟨front, back, rfl, hfront⟩ := exists_append_of_le hle
  rw [← hfront, List.drop_left] at hnil
  rw [← heq, ← hfront, writeAt_append, List.drop_left, hnil, List.drop_nil, List.append_nil]

theorem header_take_ne_write {n : Nat} (h : n < body.length) :
    Record.header key body.length ++ body.take n ≠ (⟨key, body⟩ : Record).write := by
  intro heq
  have htake : body.take n = body := List.append_cancel_left heq
  have hlen := congrArg List.length htake
  rw [List.length_take] at hlen
  omega

section Append

variable {w : World} {key body : Bytes} {p : Pack} {bs : Bytes}
  (hclean : clean → Clean w) (ha : w.store.place? w.store.active = some p.place)
  (hadm : Admitted p.place ⟨key, body⟩) (hbs : w.disk.bytes? p.tier p.id = some bs)
  (hle : p.size ≤ bs.length)

include hclean ha hadm in
/-- The header alone is a torn record, unless the value is empty. -/
theorem header_effect (hne : body ≠ []) (now : Int) :
    Effect bound clean w [] ⟨w.store, FileOp.apply w.disk
      (.write p.tier p.id p.size (Record.header key body.length) now)⟩ := by
  refine Effect.scribble now ha hadm (List.prefix_append _ _) ?_ ?_
  · simpa using header_take_ne_write (n := 0) (List.length_pos_iff.mpr hne)
  · intro hc bs' hbs'
    rw [(hclean hc).drop_eq_nil ha hbs']
    exact List.nil_prefix

include hclean ha hadm in
theorem shortHeader_executes {n : Nat} (hn : n < (Record.header key body.length).length)
    (fails : Bool) (now : Int) :
    Executes bound clean w ⟨w.store,
      .write p.tier p.id p.size ((Record.header key body.length).take n) now ::
        if fails then [] else [FileOp.truncate p.tier p.id p.size now], false⟩ [] := by
  refine Executes.cons (Effect.scribble now ha hadm
    ((List.take_prefix _ _).trans (List.prefix_append _ _)) ?_ ?_) (SameFiles.refl _)
    (undo_executes ha _ _)
  · intro heq
    have := congrArg List.length heq
    simp only [List.length_take, Record.write, List.length_append] at this
    omega
  · intro hc bs' hbs'
    rw [(hclean hc).drop_eq_nil ha hbs']
    exact List.nil_prefix

include hclean ha hadm hbs hle in
theorem shortBody_executes {n : Nat} (hn : n < body.length) (fails : Bool) (now : Int) :
    Executes bound clean w ⟨w.store,
      .write p.tier p.id p.size (Record.header key body.length) now ::
      .write p.tier p.id (p.size + (Record.header key body.length).length) (body.take n) now ::
        if fails then [] else [FileOp.truncate p.tier p.id p.size now], false⟩ [] := by
  have hne : body ≠ [] := List.ne_nil_of_length_pos (by omega)
  have hpart : Record.header key body.length ++ body.take n <+: (⟨key, body⟩ : Record).write :=
    (List.prefix_append_right_inj _).mpr (List.take_prefix n body)
  refine Executes.cons (header_effect hclean ha hadm hne now) (SameFiles.refl _)
    (Executes.cons (Effect.scribble now ha hadm hpart (header_take_ne_write hn) ?_)
      (sameFiles_write hbs hle _ _ _) (undo_executes ha _ _))
  intro hc bs' hbs'
  rw [(hclean hc).drop_header ha hbs hle _ now hbs']
  exact List.prefix_append _ _

include ha hadm in
theorem append_effect {d : Disk} (hp : w.store.packs.lookup w.store.active = some p)
    (hid : p.id = w.store.active)
    (htail : clean → ∀ bs, d.bytes? p.tier p.id = some bs →
      bs.drop p.size <+: (⟨key, body⟩ : Record).write) (now : Int) :
    Effect bound clean ⟨w.store, d⟩ [.stored key body w.store.active]
      ⟨w.store.record p key body,
        FileOp.apply d (.write p.tier p.id p.size (⟨key, body⟩ : Record).write now)⟩ := by
  refine Effect.append now ha hadm htail ?_ rfl ?_ ?_
  · simp only [Store.record]
    rw [← hadm.loc_eq]
    rfl
  · simp [Store.record, addTotal]
  · intro id
    rw [record_place? hp hid, Record.write_length]
    rfl

include hclean ha hadm hbs hle in
theorem whole_executes (hp : w.store.packs.lookup w.store.active = some p)
    (hid : p.id = w.store.active) (now : Int) :
    Executes bound clean w ⟨w.store.record p key body,
      .write p.tier p.id p.size (Record.header key body.length) now ::
        if body.isEmpty then []
        else [.write p.tier p.id (p.size + (Record.header key body.length).length) body now],
      true⟩ [.stored key body w.store.active] := by
  by_cases hne : body = []
  · -- the header is the whole record
    subst hne
    have hwrite : (⟨key, []⟩ : Record).write = Record.header key 0 := List.append_nil _
    have htail : clean → ∀ bs, w.disk.bytes? p.tier p.id = some bs →
        bs.drop p.size <+: (⟨key, []⟩ : Record).write := by
      intro hc bs' hbs'
      rw [show bs'.drop p.size = [] from (hclean hc).drop_eq_nil ha hbs']
      exact List.nil_prefix
    have happend : Effect bound clean w _ _ := append_effect ha hadm hp hid htail now
    rw [hwrite] at happend
    exact Executes.last happend (SameFiles.refl _) _
  · rw [if_neg (by simpa using hne)]
    refine Executes.cons (header_effect hclean ha hadm hne now) (SameFiles.refl _)
      (Executes.last (append_effect ha hadm hp hid ?_ now) (sameFiles_write hbs hle _ _ _) _)
    intro hc bs' hbs'
    rw [show bs'.drop p.size = _ from (hclean hc).drop_header ha hbs hle _ now hbs']
    exact List.prefix_append _ _

end Append

theorem append_executes (hw : Placed w) (hclean : clean → Clean w)
    (ha : w.store.place? w.store.active = some a) (hadm : Admitted a ⟨key, body⟩) (now : Int)
    (io : PutIO) :
    Executes bound clean w (w.store.append key body now io)
      (appendEvents w.store key body (w.store.append key body now io)) := by
  obtain ⟨a', bs, ha', htier, hbs, hle⟩ := hw.active
  rw [ha] at ha'
  cases ha'
  have hid : a.id = w.store.active := hw.id_eq ha
  obtain ⟨p, hp, rfl⟩ := of_place?_eq_some ha
  have hfile : w.disk.bytes? p.tier p.id = some bs := by
    rw [show p.tier = 0 from htier, show p.id = w.store.active from hid]
    exact hbs
  simp only [Store.append, hp]
  split
  · exact Executes.nil (SameTables.refl _) _
  split
  · next hshort => exact shortHeader_executes hclean ha hadm hshort _ now
  split
  · next hshort => exact shortBody_executes hclean ha hadm hfile hle hshort _ now
  · exact whole_executes hclean ha hadm hfile hle hp hid now

/-- What `Put` reports as stored. -/
def putEvents (key body : Bytes) (o : Outcome Store) : List Event :=
  if o.ok then [.stored key body o.state.active] else []

theorem append_active (s : Store) (key body : Bytes) (now : Int) (io : PutIO) :
    (s.append key body now io).state.active = s.active := by
  unfold Store.append
  split
  · rfl
  · simp only
    split <;> [rfl; split <;> [rfl; split <;> rfl]]

/-- A rotation that succeeds has sealed the old pack and created the new one. -/
theorem rotate_of_ok (h : (s.rotate d now io).ok = true) :
    ∃ a id, id = u32 (s.active + 1) ∧ s.packs.lookup s.active = some a ∧
      d.bytes? 0 id = none ∧
      s.rotate d now io =
        ⟨{ s with packs := s.packs.insert id ⟨id, 0, 0, 0, now, now⟩, active := id },
          [s.seal a io.order, .create 0 id now], true⟩ := by
  unfold Store.rotate at h ⊢
  split at h
  · cases h
  · next a ha =>
      simp only at h ⊢
      split at h
      · cases h
      · next hseal =>
          cases hstart : s.startPack d (u32 (s.active + 1)) now io.createFails with
          | none => simp [hstart] at h
          | some c =>
              obtain ⟨hfree, rfl⟩ := of_startPack hstart
              exact ⟨a, _, rfl, ha, hfree, by simp [hseal]⟩

theorem rotate_place? (h : (s.rotate d now io).ok = true) :
    (s.rotate d now io).state.place? (s.rotate d now io).state.active =
      some ⟨(s.rotate d now io).state.active, 0, 0⟩ := by
  obtain ⟨a, id, -, -, -, heq⟩ := rotate_of_ok h
  rw [heq]
  exact (place?_insert _ _ _ _).trans (if_pos rfl)

theorem rotate_clean (hok : (w.store.rotate w.disk now io).ok = true) :
    Clean ((w.store.rotate w.disk now io).world w.disk) := by
  intro b bs hb hbs
  have hplace : some b = some _ := hb.symm.trans (rotate_place? hok)
  cases hplace
  obtain ⟨a, id, -, -, -, heq⟩ := rotate_of_ok hok
  rw [heq] at hbs
  simp only [Outcome.world, Disk.applyAll_cons, Disk.applyAll_nil, bytes?_create,
    if_true] at hbs
  cases hbs
  exact Nat.zero_le _

theorem putLocked_executes (hw : Placed w) (hclean : clean → Clean w)
    (hbound : w.store.active + 1 < bound) (hmax : bound ≤ 2 ^ 32) (hkey : key.length ≤ 4096)
    (hbody : body.length ≤ 2 * 2 ^ 30) (now : Int) (io : PutIO) :
    Executes bound clean w (w.store.putLocked w.disk key body now io)
      (putEvents key body (w.store.putLocked w.disk key body now io)) := by
  obtain ⟨a, -, ha, -⟩ := hw.active
  obtain ⟨p, hp, rfl⟩ := of_place?_eq_some ha
  have hrot : Executes bound clean w _ _ := rotate_executes hw hbound hmax now io
  simp only [Store.putLocked, hp, Option.any_some]
  split
  · split
    · next hok =>
        have hboth := hrot.append (append_executes (hw.chain hrot.full)
          (fun _ => rotate_clean hok) (rotate_place? hok)
          (⟨hkey, hbody, Or.inr rfl⟩ : Admitted _ ⟨key, body⟩) now io)
        rw [appendEvents, ← append_active _ key body now io] at hboth
        exact hboth
    · next hok =>
        rw [putEvents, if_neg hok]
        exact hrot
  · next hroom =>
      simp only [Bool.and_eq_true, decide_eq_true_eq, not_and, Nat.not_lt] at hroom
      have hadm : Admitted p.place ⟨key, body⟩ := by
        refine ⟨hkey, hbody, ?_⟩
        rw [Record.write_length]
        rcases Nat.lt_or_ge packLimit (p.size + (recHeader + key.length + body.length)) with
          hlt | hge
        · exact Or.inr (Nat.le_zero.mp (hroom hlt))
        · exact Or.inl hge
      have happend : Executes bound clean w _ _ := append_executes hw hclean ha hadm now io
      rw [appendEvents, ← append_active w.store key body now io] at happend
      exact happend

theorem put_executes (hw : Placed w) (hclean : clean → Clean w)
    (hbound : w.store.active + 1 < bound) (hmax : bound ≤ 2 ^ 32) (key : Bytes) (size : Int)
    (r : Bytes) (now : Int) (io : PutIO) :
    Executes bound clean w (w.store.put w.disk key size r now io)
      (w.events (.put key size r now io)) := by
  simp only [World.events]
  unfold Store.put
  split
  · exact Executes.nil (SameTables.refl _) _
  · next hgood =>
      simp only [badPut, Bool.or_eq_true, not_or, decide_eq_true_eq] at hgood
      refine putLocked_executes hw hclean hbound hmax (by omega) ?_ now io
      rw [List.length_take]
      omega

theorem lookup_erase_place (packs : Map Nat Pack) (id i : Nat) :
    ((packs.erase id).lookup i).map Pack.place =
      if i = id then none else (packs.lookup i).map Pack.place := by
  rw [Map.lookup_erase_eq]
  split <;> rfl

theorem lookup_demoted_place {packs : Map Nat Pack} {p : Pack} (hp : packs.lookup id = some p)
    (i : Nat) :
    ((Map.adjust packs id fun p => { p with tier := p.tier + 1 }).lookup i).map Pack.place =
      if i = id then some { p.place with tier := p.tier + 1 }
      else (packs.lookup i).map Pack.place := by
  rw [lookup_adjust_place _ _ _ (g := fun p => { p with tier := p.tier + 1 }) fun _ => rfl]
  split
  · next heq =>
      rw [heq, hp]
      rfl
  · rfl

section Move

variable {w : World} {id : Nat} {p : Pack} (hw : Placed w)
  (hp : w.store.packs.lookup id = some p) (hne : id ≠ w.store.active)

include hw hp hne in
theorem evict_executes (hlast : p.tier + 1 = w.store.tiers.length) :
    Executes bound clean w (w.store.evict p) [.evicted id] := by
  have hplace := place?_eq_some hp
  have hid : p.id = id := hw.id_eq hplace
  have hnone : w.disk.bytes? (p.tier + 1) p.id = none := by
    cases hb : w.disk.bytes? (p.tier + 1) p.id with
    | none => rfl
    | some bs => exact absurd (hw.tier_lt hb) (by omega)
  unfold Store.evict
  refine Executes.consQuiet (by simp [Quiet]) (Effect.evict hplace hne hnone ?_ ?_ ?_ ?_)
    (SameFiles.refl _)
    (Executes.cons (Effect.removeHint ?_ ?_) (SameFiles.refl _)
      (Executes.nil (SameTables.refl _) _))
  · intro key
    rw [← hid]
    exact Map.lookup_filter _ _ _
  · rfl
  · simp [addTotal]
  · intro i
    rw [hid]
    exact lookup_erase_place _ _ _
  · intro q hq
    rw [Core.place?, lookup_erase_place, if_pos rfl] at hq
    cases hq
  · rw [bytes?_removePack, if_pos rfl]

include hw hp hne in
theorem demote_executes (hlow : p.tier + 1 < w.store.tiers.length) (io : MoveIO) :
    Executes bound clean w (w.store.demote w.disk p io) [] := by
  have hplace := place?_eq_some hp
  have hid : p.id = id := hw.id_eq hplace
  obtain ⟨bs, hbs⟩ := hw.has_file hplace
  have hbs : w.disk.bytes? p.tier p.id = some bs := hid ▸ hbs
  have hlink : Effect bound clean w [] ⟨w.store, FileOp.apply w.disk (.linkPack p.tier p.id)⟩ :=
    Effect.linkPack hplace hne hlow
  have hcopy : ((FileOp.apply w.disk (.linkPack p.tier p.id)).bytes? (p.tier + 1) p.id).isSome := by
    rw [bytes?_linkPack, if_pos rfl, hbs]
    cases w.disk.bytes? (p.tier + 1) p.id <;> rfl
  unfold Store.demote
  split
  · exact Executes.nil (SameTables.refl _) _
  split
  · exact Executes.cons hlink (SameFiles.refl _) (Executes.nil (SameTables.refl _) _)
  · next hhint =>
      have hlinks := fun {s' : Store} {ops : List FileOp} {ok : Bool} =>
        fun (hrest : Executes bound clean ⟨w.store, FileOp.apply (FileOp.apply w.disk
          (.linkPack p.tier p.id)) (.linkHint p.tier p.id)⟩ ⟨s', ops, ok⟩ []) =>
        Executes.cons hlink (SameFiles.refl _) (Executes.cons
          (Effect.linkHint hplace hne hcopy) (SameFiles.refl _) hrest)
      split
      · exact hlinks (Executes.nil (SameTables.refl _) _)
      · obtain ⟨h, hh⟩ : ∃ h, w.disk.hint? p.tier p.id = some h := by
          cases hq : w.disk.hint? p.tier p.id with
          | some h => exact ⟨h, rfl⟩
          | none => exact absurd (by simp [hq]) hhint
        refine hlinks (Executes.cons (Effect.idle (SameTables.refl _) (sameFiles_chtimes _ _ _ _))
          (SameFiles.refl _) (Executes.cons (Effect.switch hplace hne ?_ ?_ ?_ ?_ ?_ ?_)
            (SameFiles.refl _) (Executes.cons (Effect.removeHint ?_ ?_) (SameFiles.refl _)
              (Executes.nil (SameTables.refl _) _))))
        · rw [bytes?_chtimes, bytes?_linkHint]
          exact hcopy
        · show ((FileOp.apply _ (.chtimes _ _ _)).hint? (p.tier + 1) p.id).isSome
          rw [hint?_chtimes, hint?_linkHint, if_pos rfl, hint?_linkPack, hint?_linkPack, hh]
          cases w.disk.hint? (p.tier + 1) p.id <;> rfl
        · rfl
        · rfl
        · simp [addTotal]
        · intro i
          rw [← hid]
          exact lookup_demoted_place (hid ▸ hp) i
        · intro q hq
          rw [Core.place?, lookup_demoted_place (hid ▸ hp), if_pos rfl] at hq
          cases hq
          exact Nat.lt_succ_self _
        · rw [bytes?_removePack, if_pos rfl]

end Move

/-- An operation of the store, started where packs and files are together. -/
theorem step_executes (hw : Placed w) (hclean : clean → Clean w)
    (hbound : w.store.active + 1 < bound) (hmax : bound ≤ 2 ^ 32) {op : Op} {o : Outcome Store}
    (h : w.outcome op = some o) : Executes bound clean w o (w.events op) := by
  cases op with
  | put key size r now io =>
      cases h
      exact put_executes hw hclean hbound hmax key size r now io
  | get key now =>
      cases h
      exact touch_executes w key now
  | move id io =>
      obtain ⟨hne, p, hp, rfl⟩ := World.outcome_move h
      simp only [World.events, hp, Store.moveDown]
      split
      · next hlast => exact evict_executes hw hp hne hlast
      · next hlast =>
          obtain ⟨bs, hbs⟩ := hw.has_file (place?_eq_some hp)
          have htier : p.tier < w.store.tiers.length := hw.tier_lt hbs
          exact demote_executes hw hp hne (by omega) io

end Repkgs.Jigd
