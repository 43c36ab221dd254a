import Repkgs.Jigd.HintFiles

/-!
# What was ever written to a pack

A history gives every pack id the records that were written to it, in order, in
all lifetimes together. Files hold first parts of these records, hint files and
index entries describe them; this survives every effect of a running store.
-/

namespace Repkgs.Jigd

open Lib

/-- The records written to each pack, oldest first. -/
abbrev History := Nat → List Record

/-- `off` and `len` are the place of a record of `key` and the length of its value. -/
def Describes (rs : List Record) (key : Bytes) (off len : Nat) : Prop :=
  ∃ pre r post, rs = pre ++ r :: post ∧ r.key = key ∧
    off = (recordFormat.writeAll pre).length ∧ len = r.value.length

/-- An index entry of a record in the history. -/
def History.Locates (hist : History) (key : Bytes) (l : Loc) : Prop :=
  ∃ off, Describes (hist l.pack) key off l.len ∧ l.off = off + recHeader + key.length

theorem Describes.append {rs : List Record} {key : Bytes} {off len : Nat}
    (h : Describes rs key off len) (rs' : List Record) : Describes (rs ++ rs') key off len := by
  obtain ⟨pre, r, post, rfl, hkey, hoff, hlen⟩ := h
  exact ⟨pre, r, post ++ rs', by simp, hkey, hoff, hlen⟩

variable {rs : List Record} {key : Bytes} {id : Nat} {l : Loc} {hist : History} {d : Disk}
  {w w' : World}

theorem Describes.end_le {off len : Nat} (h : Describes rs key off len) :
    off + recHeader + key.length + len ≤ (recordFormat.writeAll rs).length := by
  obtain ⟨pre, r, post, rfl, rfl, rfl, rfl⟩ := h
  have hlen : (recordFormat.write r).length = _ := r.write_length
  rw [Format.writeAll_append, Format.writeAll_cons, List.length_append, List.length_append, hlen]
  omega

/-- A file that is long enough holds the value that is described. -/
theorem Describes.section_eq {off len : Nat} (h : Describes rs key off len) {bs tail : Bytes}
    (hbs : bs <+: recordFormat.writeAll rs ++ tail)
    (hle : off + recHeader + key.length + len ≤ bs.length) :
    ⟨key, sectionBytes bs (off + recHeader + key.length) len⟩ ∈ rs := by
  obtain ⟨pre, r, post, rfl, rfl, rfl, rfl⟩ := h
  have htake : bs.take bs.length =
      (recordFormat.writeAll (pre ++ r :: post) ++ tail).take bs.length := by
    rw [List.take_length]
    exact List.prefix_iff_eq_take.mp hbs
  rw [sectionBytes_congr htake hle]
  have hskip : (recordFormat.writeAll pre).length + recHeader + r.key.length =
      (recordFormat.writeAll pre ++ Record.header r.key r.value.length).length := by
    rw [List.length_append, Record.header_length, Nat.add_assoc]
  have hall : recordFormat.writeAll (pre ++ r :: post) ++ tail =
      (recordFormat.writeAll pre ++ Record.header r.key r.value.length) ++
        (r.value ++ (recordFormat.writeAll post ++ tail)) := by
    have hwrite : recordFormat.write r = Record.header r.key r.value.length ++ r.value := rfl
    rw [Format.writeAll_append, Format.writeAll_cons, hwrite]
    simp only [List.append_assoc]
  rw [hall, sectionBytes, hskip, List.drop_left, List.take_left]
  simp

/-- Directories that hold nothing but first parts of the history. -/
structure Sound (hist : History) (d : Disk) : Prop where
  bytes : ∀ {t id bs}, d.bytes? t id = some bs →
    ∃ tail, recordFormat.Torn tail ∧ bs <+: recordFormat.writeAll (hist id) ++ tail
  hint : ∀ {t id hint}, d.hint? t id = some hint → ∀ e ∈ (hintFormat.readAll hint).1,
    Describes (hist id) e.key e.off e.vlen
  used : ∀ {id}, hist id ≠ [] → ∃ t id' bs, id ≤ id' ∧ d.bytes? t id' = some bs
  fits : ∀ {id r}, r ∈ hist id → recordFormat.Fits r
  small : ∀ id, (recordFormat.writeAll (hist id)).length < 2 ^ 32

theorem torn_nil_record : recordFormat.Torn [] :=
  Format.torn_nil (a := ⟨[], []⟩) (by constructor <;> simp)

theorem mem_scanLocs {id off : Nat} (hsmall : off + (recordFormat.writeAll rs).length < 2 ^ 32)
    (h : (key, l) ∈ scanLocs id off rs) :
    ∃ pos, Describes rs key pos l.len ∧ l = ⟨id, off + pos + recHeader + key.length, l.len⟩ := by
  induction rs generalizing off with
  | nil => cases h
  | cons r rs ih =>
      have hlen : (recordFormat.write r).length = _ := r.write_length
      rw [Format.writeAll_cons, List.length_append, hlen] at hsmall
      rcases List.mem_cons.mp h with heq | hmem
      · obtain ⟨rfl, rfl⟩ := Prod.mk.inj heq
        refine ⟨0, ⟨[], r, rs, rfl, rfl, rfl, rfl⟩, ?_⟩
        rw [u32_of_lt (n := off) (by omega), u32_of_lt (by omega)]
        rfl
      · obtain ⟨pos, ⟨pre, r', post, rfl, hkey, rfl, hlen'⟩, hl⟩ := ih (by omega) hmem
        refine ⟨_, ⟨r :: pre, r', post, rfl, hkey, rfl, hlen'⟩, ?_⟩
        rw [hl, Format.writeAll_cons, List.length_append, hlen]
        congr 1
        omega

theorem of_hintLoc {id size : Nat} {e : HintEntry}
    (hsmall : e.off + recHeader + e.key.length + e.vlen < 2 ^ 32)
    (h : hintLoc id size e = some (key, l)) :
    key = e.key ∧ l = ⟨id, e.off + recHeader + e.key.length, e.vlen⟩ ∧ l.off + l.len ≤ size := by
  have hsum : ((e.off : Int) + recHeader + e.key.length + e.vlen) =
      ((e.off + recHeader + e.key.length + e.vlen : Nat) : Int) := by
    push_cast
    rfl
  have hbmod : Int.bmod ((e.off + recHeader + e.key.length + e.vlen : Nat) : Int) (2 ^ 64) =
      ((e.off + recHeader + e.key.length + e.vlen : Nat) : Int) := by
    apply Int.bmod_eq_of_le <;> omega
  unfold hintLoc at h
  rw [hsum, hbmod] at h
  split at h
  · cases h
  · next hle =>
      obtain ⟨rfl, rfl⟩ := Prod.mk.inj (Option.some.inj h)
      have hoff : u32 (u32 e.off + recHeader + e.key.length) =
          e.off + recHeader + e.key.length := by
        rw [u32_of_lt (n := e.off) (by omega), u32_of_lt (by omega)]
      rw [hoff]
      refine ⟨rfl, rfl, ?_⟩
      exact_mod_cast Int.not_lt.mp hle

/-- Every entry that loading a pack finds is one of the history and lies inside
the file as it is left. -/
theorem Sound.locates (h : Sound hist d) {t id : Nat} (hmem : (key, l) ∈ locsAt d t id) :
    hist.Locates key l ∧ ∃ bs, bytesAfter d t id = some bs ∧ l.off + l.len ≤ bs.length := by
  cases hbs : d.bytes? t id with
  | none =>
      rw [locsAt, hbs] at hmem
      cases hmem
  | some bs =>
      have hsmall := h.small id
      cases hhint : d.hint? t id with
      | some hint =>
          rw [locsAt_of_hint hbs hhint] at hmem
          obtain ⟨e, he, hloc⟩ := List.mem_filterMap.mp hmem
          have hdesc := h.hint hhint e he
          obtain ⟨rfl, rfl, hle⟩ := of_hintLoc (Nat.lt_of_le_of_lt hdesc.end_le hsmall) hloc
          refine ⟨⟨e.off, hdesc, rfl⟩, bs, ?_, hle⟩
          rw [bytesAfter, hbs, hhint]
          rfl
      | none =>
          simp only [locsAt, hbs, hhint] at hmem
          obtain ⟨tail, htorn, hpre⟩ := h.bytes hbs
          obtain ⟨later, hlater⟩ :=
            Format.readAll_prefix_of_torn (fun r hr => h.fits hr) htorn hpre
          have hle : (wholeRecords bs).length ≤ (recordFormat.writeAll (hist id)).length := by
            rw [← hlater, Format.writeAll_append, List.length_append]
            exact Nat.le_add_right _ _
          have hwhole : 0 + (wholeRecords bs).length < 2 ^ 32 := by omega
          obtain ⟨pos, hdesc, hl⟩ := mem_scanLocs hwhole hmem
          have hend := hdesc.end_le
          rw [Nat.zero_add] at hl
          refine ⟨⟨pos, ?_, ?_⟩, wholeRecords bs, ?_, ?_⟩
          · rw [hl, ← hlater]
            exact hdesc.append later
          · rw [hl]
          · rw [bytesAfter, hbs, hhint]
            rfl
          · rw [hl]
            exact hend

/-- The entries of a hint file written from entries of the history. -/
theorem hintOf_describes {index : Map Bytes Loc}
    (hsmall : (recordFormat.writeAll (hist id)).length < 2 ^ 32)
    (h : ∀ {key l}, index.lookup key = some l → l.pack = id → hist.Locates key l) (order : Shuffle)
    {e : HintEntry} (he : e ∈ (hintFormat.readAll (hintOf index id order)).1) :
    Describes (hist id) e.key e.off e.vlen := by
  have hpairs : ∀ x ∈ (order.run (Map.toPairs index)).filter (fun x => x.2.pack = id),
      ∃ off, Describes (hist id) x.1 off x.2.len ∧ x.2.off = off + recHeader + x.1.length := by
    intro x hx
    obtain ⟨hmem, hid⟩ := List.mem_filter.mp hx
    have hid' : x.2.pack = id := of_decide_eq_true hid
    obtain ⟨off, hdesc, hoff⟩ :=
      h (Map.mem_toPairs.mp ((order.perm _).mem_iff.mp hmem)) hid'
    exact ⟨off, hid' ▸ hdesc, hoff⟩
  have hinside : ∀ x ∈ (order.run (Map.toPairs index)).filter (fun x => x.2.pack = id),
      Inside (recordFormat.writeAll (hist id)).length x.1 x.2 := by
    intro x hx
    obtain ⟨off, hdesc, hoff⟩ := hpairs x hx
    have hend := hdesc.end_le
    exact ⟨by omega, by omega, by omega⟩
  have hfits : ∀ a ∈ ((order.run (Map.toPairs index)).filter fun x => x.2.pack = id).map
      hintEntry, hintFormat.Fits a := by
    intro a ha
    obtain ⟨x, hx, rfl⟩ := List.mem_map.mp ha
    exact hintEntry_fits (hinside x hx)
  rw [hintOf, Format.readAll_writeAll hfits] at he
  obtain ⟨x, hx, rfl⟩ := List.mem_map.mp he
  obtain ⟨off, hdesc, hoff⟩ := hpairs x hx
  rw [hintEntry_off (hinside x hx), hoff]
  have hpos : off + recHeader + x.1.length - recHeader - x.1.length = off := by omega
  rw [hpos]
  exact hdesc

theorem Admitted.fits_record {a : Place} {r : Record} (h : Admitted a r) :
    recordFormat.Fits r := by
  have hkey := h.key_le
  have hvalue := h.value_le
  constructor <;> omega

/-- The history once values were stored. -/
def History.after (hist : History) : List Event → History
  | [] => hist
  | .stored key body id :: es =>
      History.after (Function.update hist id (hist id ++ [⟨key, body⟩])) es
  | .evicted _ :: es => hist.after es

theorem History.after_append (hist : History) (es es' : List Event) :
    hist.after (es ++ es') = (hist.after es).after es' := by
  induction es generalizing hist with
  | nil => rfl
  | cons e es ih =>
      cases e with
      | stored key body id => exact ih _
      | evicted id => exact ih _

/-- A running store on sound directories: its entries are records of the history
inside their files, and behind the records of the active pack stands at most a
part of one more. -/
structure Live (hist : History) (w : World) : Prop where
  sound : Sound hist w.disk
  index : ∀ {key l}, w.store.index.lookup key = some l → hist.Locates key l ∧ ∃ p bs,
    w.store.place? l.pack = some p ∧ w.disk.bytes? p.tier l.pack = some bs ∧
      l.off + l.len ≤ bs.length
  active : ∀ {a}, w.store.place? w.store.active = some a →
    a.size = (recordFormat.writeAll (hist w.store.active)).length ∧ ∃ tail,
      recordFormat.Torn tail ∧ w.disk.bytes? 0 w.store.active =
        some (recordFormat.writeAll (hist w.store.active) ++ tail)

theorem History.Locates.end_le (h : hist.Locates key l) :
    l.off + l.len ≤ (recordFormat.writeAll (hist l.pack)).length := by
  obtain ⟨off, hdesc, hoff⟩ := h
  rw [hoff]
  exact hdesc.end_le

/-- Directories made of parts of sound ones. -/
theorem Sound.sub {d d' : Disk} (h : Sound hist d)
    (hbytes : ∀ {t id bs}, d'.bytes? t id = some bs →
      ∃ t' bs', d.bytes? t' id = some bs' ∧ bs <+: bs')
    (hhint : ∀ {t id hint}, d'.hint? t id = some hint →
      ∃ t' hint', d.hint? t' id = some hint' ∧ hint <+: hint')
    (hkept : ∀ {t id bs}, d.bytes? t id = some bs →
      ∃ t' id' bs', id ≤ id' ∧ d'.bytes? t' id' = some bs') : Sound hist d' where
  bytes hbs := by
    obtain ⟨t', bs', hbs', hpre⟩ := hbytes hbs
    obtain ⟨tail, htorn, hpre'⟩ := h.bytes hbs'
    exact ⟨tail, htorn, hpre.trans hpre'⟩
  hint hh e he := by
    obtain ⟨t', hint', hh', hpre⟩ := hhint hh
    exact h.hint hh' e ((hintFormat.readAll_prefix hpre).subset he)
  used hne := by
    obtain ⟨t, id', bs, hle, hbs⟩ := h.used hne
    obtain ⟨t', id'', bs', hle', hbs'⟩ := hkept hbs
    exact ⟨t', id'', bs', hle.trans hle', hbs'⟩
  fits := h.fits
  small := h.small

/-- The tables stay, and so do the files where packs are read. -/
theorem Live.frame (h : Live hist w) (hw : Placed w)
    (ht : SameTables w.store w'.store) (hsound : Sound hist w'.disk)
    (hbytes : ∀ {id p}, w.store.place? id = some p →
      w'.disk.bytes? p.tier id = w.disk.bytes? p.tier id) : Live hist w' := by
  refine ⟨hsound, ?_, ?_⟩
  · intro key l hl
    rw [ht.index] at hl
    obtain ⟨hloc, p, bs, hp, hbs, hle⟩ := h.index hl
    exact ⟨hloc, p, bs, (ht.place _).trans hp, (hbytes hp).trans hbs, hle⟩
  · intro a ha
    rw [ht.place, ht.active] at ha
    rw [ht.active]
    obtain ⟨a', -, ha', htier, -⟩ := hw.active
    cases ha.symm.trans ha'
    obtain ⟨hsize, tail, htorn, hbs⟩ := h.active ha
    exact ⟨hsize, tail, htorn, by rw [← htier, hbytes ha, htier, hbs]⟩

/-- The active pack gets another part of a record behind its records. -/
theorem Live.rewrite {tail : Bytes} (h : Live hist w)
    (hstore : w'.store = w.store) (htorn : recordFormat.Torn tail)
    (hbytes : ∀ t id, w'.disk.bytes? t id = if (t, id) = (0, w.store.active) then
      some (recordFormat.writeAll (hist w.store.active) ++ tail) else w.disk.bytes? t id)
    (hhint : ∀ t id, w'.disk.hint? t id = w.disk.hint? t id) : Live hist w' := by
  refine ⟨⟨?_, ?_, ?_, h.sound.fits, h.sound.small⟩, ?_, ?_⟩
  · intro t id bs hbs
    rw [hbytes] at hbs
    split at hbs
    · next heq =>
        cases hbs
        rw [(Prod.mk.inj heq).2]
        exact ⟨tail, htorn, List.prefix_rfl⟩
    · exact h.sound.bytes hbs
  · intro t id hint hh
    rw [hhint] at hh
    exact h.sound.hint hh
  · intro id hne
    obtain ⟨t, id', bs, hle, hbs⟩ := h.sound.used hne
    by_cases heq : (t, id') = (0, w.store.active)
    · exact ⟨t, id', _, hle, by rw [hbytes, if_pos heq]⟩
    · exact ⟨t, id', bs, hle, by rw [hbytes, if_neg heq, hbs]⟩
  · intro key l hl
    rw [hstore] at hl
    obtain ⟨hloc, p, bs, hp, hbs, hle⟩ := h.index hl
    rw [hstore]
    by_cases heq : (p.tier, l.pack) = (0, w.store.active)
    · refine ⟨hloc, p, _, hp, by rw [hbytes, if_pos heq], ?_⟩
      have hend := hloc.end_le
      rw [(Prod.mk.inj heq).2] at hend
      rw [List.length_append]
      omega
    · exact ⟨hloc, p, bs, hp, by rw [hbytes, if_neg heq, hbs], hle⟩
  · intro a ha
    rw [hstore] at ha ⊢
    obtain ⟨hsize, -⟩ := h.active ha
    exact ⟨hsize, tail, htorn, by rw [hbytes, if_pos rfl]⟩

theorem writeAt_of_prefix {front tail data : Bytes} (h : tail <+: data) :
    writeAt (front ++ tail) front.length data = front ++ data := by
  rw [writeAt_append, List.drop_eq_nil_of_le h.length_le, List.append_nil]

theorem writeAll_snoc (rs : List Record) (r : Record) :
    recordFormat.writeAll (rs ++ [r]) = recordFormat.writeAll rs ++ r.write := by
  rw [Format.writeAll_append, Format.writeAll_cons, Format.writeAll_nil, List.append_nil]
  rfl

section Append

variable {hist hist' : History} {id₀ : Nat} {r : Record}
  (hafter : ∀ id, hist' id = if id = id₀ then hist id₀ ++ [r] else hist id)

include hafter in
theorem describes_after {id : Nat} {key : Bytes} {off len : Nat}
    (h : Describes (hist id) key off len) : Describes (hist' id) key off len := by
  rw [hafter]
  split
  · next heq => exact (heq ▸ h).append [r]
  · exact h

include hafter in
/-- One more record at the end of a pack that stands in the first tier only. -/
theorem Sound.append {d d' : Disk} (h : Sound hist d)
    (hfirst : ∀ {t bs}, d.bytes? t id₀ = some bs → t = 0) (hfits : recordFormat.Fits r)
    (hsmall : (recordFormat.writeAll (hist id₀)).length + r.write.length < 2 ^ 32)
    (hbytes : ∀ t id, d'.bytes? t id = if (t, id) = (0, id₀) then
      some (recordFormat.writeAll (hist id₀) ++ r.write) else d.bytes? t id)
    (hhint : ∀ t id, d'.hint? t id = d.hint? t id) : Sound hist' d' := by
  refine ⟨?_, ?_, ?_, ?_, ?_⟩
  · intro t id bs hbs
    rw [hbytes] at hbs
    split at hbs
    · next heq =>
        cases hbs
        rw [(Prod.mk.inj heq).2, hafter, if_pos rfl, writeAll_snoc]
        exact ⟨[], torn_nil_record, by rw [List.append_nil]⟩
    · next hpair =>
        have hid : id ≠ id₀ := by
          rintro rfl
          exact hpair (by rw [hfirst hbs])
        rw [hafter, if_neg hid]
        exact h.bytes hbs
  · intro t id hint hh e he
    rw [hhint] at hh
    exact describes_after hafter (h.hint hh e he)
  · intro id hne
    have hfile : ∀ {t id' bs}, d.bytes? t id' = some bs → ∃ bs', d'.bytes? t id' = some bs' := by
      intro t id' bs hbs
      rw [hbytes]
      split
      · exact ⟨_, rfl⟩
      · exact ⟨bs, hbs⟩
    rw [hafter] at hne
    split at hne
    · next heq => exact ⟨0, id₀, _, Nat.le_of_eq heq, by rw [hbytes, if_pos rfl]⟩
    · obtain ⟨t, id', bs, hle, hbs⟩ := h.used hne
      obtain ⟨bs', hbs'⟩ := hfile hbs
      exact ⟨t, id', bs', hle, hbs'⟩
  · intro id r' hr'
    rw [hafter] at hr'
    split at hr'
    · rcases List.mem_append.mp hr' with hold | hlast
      · exact h.fits hold
      · rw [List.mem_singleton.mp hlast]
        exact hfits
    · exact h.fits hr'
  · intro id
    rw [hafter]
    split
    · rw [writeAll_snoc, List.length_append]
      exact hsmall
    · exact h.small id

end Append

/-- `Put` has written a record. -/
theorem Live.append {hist : History} {w w' : World} {a : Place} {r : Record} (h : Live hist w)
    (hw : Placed w) (ha : w.store.place? w.store.active = some a) (hr : Admitted a r)
    (hindex : w'.store.index = w.store.index.insert r.key
      ⟨a.id, a.size + recHeader + r.key.length, r.value.length⟩)
    (hactive : w'.store.active = w.store.active)
    (hplace : ∀ id, w'.store.place? id = if id = w.store.active then
      some { a with size := a.size + r.write.length } else w.store.place? id)
    (hbytes : ∀ t id, w'.disk.bytes? t id = if (t, id) = (0, w.store.active) then
      some (recordFormat.writeAll (hist w.store.active) ++ r.write) else w.disk.bytes? t id)
    (hhint : ∀ t id, w'.disk.hint? t id = w.disk.hint? t id) :
    Live (hist.after [.stored r.key r.value w.store.active]) w' := by
  obtain ⟨a', -, ha', htier, -⟩ := hw.active
  cases ha.symm.trans ha'
  obtain ⟨hsize, -⟩ := h.active ha
  have haid : a.id = w.store.active := hw.id_eq ha
  have hafter : ∀ id, hist.after [.stored r.key r.value w.store.active] id =
      if id = w.store.active then hist w.store.active ++ [r] else hist id := by
    intro id
    simp only [History.after, Function.update_apply]
  generalize hist.after [.stored r.key r.value w.store.active] = hist' at hafter
  have hfile : hist' w.store.active = hist w.store.active ++ [r] := by rw [hafter, if_pos rfl]
  have hwhole : w'.disk.bytes? 0 w.store.active =
      some (recordFormat.writeAll (hist' w.store.active)) := by
    rw [hbytes, if_pos rfl, hfile, writeAll_snoc]
  refine ⟨?_, ?_, ?_⟩
  · have hlt := (hr.inside w.store.active).end_lt
    have hlen := r.write_length
    simp only at hlt
    exact h.sound.append hafter hw.active_tier hr.fits_record (by omega) hbytes hhint
  · intro key l hl
    have hloc : hist'.Locates key l ∧
        (l.pack ≠ w.store.active → w.store.index.lookup key = some l) := by
      rw [hindex, Map.lookup_insert_eq] at hl
      split at hl
      · next heq =>
          subst heq
          cases hl
          refine ⟨⟨a.size, ?_, rfl⟩, fun hne => absurd haid hne⟩
          show Describes (hist' a.id) r.key a.size r.value.length
          rw [haid, hfile]
          exact ⟨hist w.store.active, r, [], rfl, rfl, hsize, rfl⟩
      · obtain ⟨⟨off, hdesc, hoff⟩, -⟩ := h.index hl
        exact ⟨⟨off, describes_after hafter hdesc, hoff⟩, fun _ => hl⟩
    refine ⟨hloc.1, ?_⟩
    by_cases hid : l.pack = w.store.active
    · have hend := hloc.1.end_le
      rw [hid] at hend ⊢
      exact ⟨_, _, (hplace _).trans (if_pos rfl), htier ▸ hwhole, hend⟩
    · obtain ⟨-, p, bs, hp, hbs, hle⟩ := h.index (hloc.2 hid)
      exact ⟨p, bs, by rw [hplace, if_neg hid, hp],
        by rw [hbytes, if_neg fun heq => hid (Prod.mk.inj heq).2, hbs], hle⟩
  · intro b hb
    rw [hactive] at hb ⊢
    rw [hplace, if_pos rfl] at hb
    cases hb
    refine ⟨?_, [], torn_nil_record, by rw [hwhole, List.append_nil]⟩
    rw [hfile, writeAll_snoc, List.length_append, ← hsize]

/-- The next pack starts empty, under an id without a history. -/
theorem Live.start {hist : History} {w w' : World} (h : Live hist w) (hw : Placed w)
    (hindex : w'.store.index = w.store.index)
    (hactive : w'.store.active = w.store.active + 1)
    (hplace : ∀ id, w'.store.place? id =
      if id = w.store.active + 1 then some ⟨w.store.active + 1, 0, 0⟩ else w.store.place? id)
    (hbytes : ∀ t id, w'.disk.bytes? t id =
      if (t, id) = (0, w.store.active + 1) then some [] else w.disk.bytes? t id)
    (hhint : ∀ t id, w'.disk.hint? t id = w.disk.hint? t id) : Live hist w' := by
  have hfresh : hist (w.store.active + 1) = [] := by
    by_contra hne
    obtain ⟨t, id', bs, hle, hbs⟩ := h.sound.used hne
    obtain ⟨p, hp, -⟩ := hw.file_owner hbs
    have := hw.le_active hp
    omega
  refine ⟨⟨?_, ?_, ?_, h.sound.fits, h.sound.small⟩, ?_, ?_⟩
  · intro t id bs hbs
    rw [hbytes] at hbs
    split at hbs
    · cases hbs
      exact ⟨[], torn_nil_record, List.nil_prefix⟩
    · exact h.sound.bytes hbs
  · intro t id hint hh
    rw [hhint] at hh
    exact h.sound.hint hh
  · intro id hne
    obtain ⟨t, id', bs, hle, hbs⟩ := h.sound.used hne
    by_cases heq : (t, id') = (0, w.store.active + 1)
    · exact ⟨t, id', _, hle, by rw [hbytes, if_pos heq]⟩
    · exact ⟨t, id', bs, hle, by rw [hbytes, if_neg heq, hbs]⟩
  · intro key l hl
    rw [hindex] at hl
    obtain ⟨hloc, p, bs, hp, hbs, hle⟩ := h.index hl
    have hid : l.pack ≠ w.store.active + 1 := by
      have := hw.le_active hp
      omega
    exact ⟨hloc, p, bs, by rw [hplace, if_neg hid, hp],
      by rw [hbytes, if_neg fun heq => hid (Prod.mk.inj heq).2, hbs], hle⟩
  · intro a ha
    rw [hactive] at ha ⊢
    rw [hplace, if_pos rfl] at ha
    cases ha
    rw [hfresh]
    exact ⟨rfl, [], torn_nil_record, by rw [hbytes, if_pos rfl]; rfl⟩

/-- A pack file is deleted while one with this or a later id is left. -/
theorem Sound.removePack (h : Sound hist d) {t t' id id' : Nat} {bs' : Bytes} (hle : id ≤ id')
    (hne : (t', id') ≠ (t, id)) (hbs' : d.bytes? t' id' = some bs') :
    Sound hist (FileOp.apply d (.removePack t id)) := by
  apply h.sub
  · intro t₁ i bs hbs
    rw [bytes?_removePack] at hbs
    split at hbs
    · cases hbs
    · exact ⟨t₁, bs, hbs, List.prefix_rfl⟩
  · intro t₁ i hint hh
    rw [hint?_removePack] at hh
    exact ⟨t₁, hint, hh, List.prefix_rfl⟩
  · intro t₁ i bs hbs
    by_cases heq : (t₁, i) = (t, id)
    · refine ⟨t', id', bs', ?_, by rw [bytes?_removePack, if_neg hne, hbs']⟩
      rw [(Prod.mk.inj heq).2]
      exact hle
    · exact ⟨t₁, i, bs, Nat.le_refl _, by rw [bytes?_removePack, if_neg heq, hbs]⟩

/-- A sealed pack is read from its copy in the next tier. -/
theorem Live.switch {hist : History} {s s' : Store} {d : Disk} {id : Nat} {p : Place}
    (h : Live hist ⟨s, d⟩) (hw : Placed ⟨s, d⟩) (hp : s.place? id = some p)
    (hne : id ≠ s.active) (hcopy : (d.bytes? (p.tier + 1) id).isSome)
    (hindex : s'.index = s.index) (hactive : s'.active = s.active)
    (hplace : ∀ i, s'.place? i =
      if i = id then some { p with tier := p.tier + 1 } else s.place? i) :
    Live hist ⟨s', FileOp.apply d (.removePack p.tier id)⟩ := by
  obtain ⟨bs, hbs⟩ := Option.isSome_iff_exists.mp hcopy
  have htier : (p.tier + 1, id) ≠ (p.tier, id) := fun heq =>
    Nat.succ_ne_self _ (Prod.mk.inj heq).1
  have hbs' : d.bytes? p.tier id = some bs := by
    obtain ⟨q, hq, hor⟩ := hw.file_owner hbs
    cases hp.symm.trans hq
    rcases hor with heq | ⟨-, -, hcopy⟩
    · exact absurd heq (Nat.succ_ne_self _)
    · exact hcopy
  refine ⟨h.sound.removePack (Nat.le_refl id) htier hbs, ?_, ?_⟩
  · intro key l hl
    obtain ⟨hloc, q, bs₀, hq, hbs₀, hle⟩ := h.index (hindex ▸ hl)
    refine ⟨hloc, ?_⟩
    by_cases hi : l.pack = id
    · rw [hi] at hq hbs₀ ⊢
      cases hp.symm.trans hq
      cases hbs'.symm.trans hbs₀
      exact ⟨_, bs, (hplace id).trans (if_pos rfl), by
        rw [bytes?_removePack, if_neg htier]; exact hbs, hle⟩
    · refine ⟨q, bs₀, (hplace _).trans ((if_neg hi).trans hq), ?_, hle⟩
      rw [bytes?_removePack, if_neg fun heq => hi (Prod.mk.inj heq).2]
      exact hbs₀
  · intro a ha
    simp only [hactive] at ha ⊢
    rw [hplace, if_neg hne.symm] at ha
    obtain ⟨hsize, tail, htorn, hfile⟩ := h.active ha
    refine ⟨hsize, tail, htorn, ?_⟩
    rw [bytes?_removePack, if_neg fun heq => hne (Prod.mk.inj heq).2.symm]
    exact hfile

/-- A pack is deleted together with its entries. -/
theorem Live.evict {hist : History} {s s' : Store} {d : Disk} {id t : Nat} {p : Place}
    (h : Live hist ⟨s, d⟩) (hw : Placed ⟨s, d⟩) (hp : s.place? id = some p)
    (hne : id ≠ s.active)
    (hindex : ∀ key, s'.index.lookup key = (s.index.lookup key).filter fun l => l.pack != id)
    (hactive : s'.active = s.active)
    (hplace : ∀ i, s'.place? i = if i = id then none else s.place? i) :
    Live hist ⟨s', FileOp.apply d (.removePack t id)⟩ := by
  obtain ⟨a₀, bs₀, -, -, hfile, -⟩ := hw.active
  have hother : (0, s.active) ≠ (t, id) := fun heq => hne (Prod.mk.inj heq).2.symm
  refine ⟨h.sound.removePack (hw.le_active hp) hother hfile, ?_, ?_⟩
  · intro key l hl
    have hlookup : s'.index.lookup key = some l := hl
    rw [hindex, Option.filter_eq_some_iff] at hlookup
    have hi : l.pack ≠ id := by simpa using hlookup.2
    obtain ⟨hloc, q, bs, hq, hbs, hle⟩ := h.index hlookup.1
    refine ⟨hloc, q, bs, (hplace _).trans ((if_neg hi).trans hq), ?_, hle⟩
    rw [bytes?_removePack, if_neg fun heq => hi (Prod.mk.inj heq).2]
    exact hbs
  · intro a ha
    simp only [hactive] at ha ⊢
    rw [hplace, if_neg hne.symm] at ha
    obtain ⟨hsize, tail, htorn, hbs⟩ := h.active ha
    refine ⟨hsize, tail, htorn, ?_⟩
    rw [bytes?_removePack, if_neg hother]
    exact hbs

/-- What a write at the end of the active pack leaves, when the bytes behind its
records are a part of the data. -/
theorem Live.written {s : Store} {a : Place} {data : Bytes} (h : Live hist ⟨s, d⟩)
    (hw : Placed ⟨s, d⟩) (ha : s.place? s.active = some a)
    (htail : ∀ bs, d.bytes? a.tier a.id = some bs → bs.drop a.size <+: data) (now : Int)
    (t id : Nat) : (FileOp.apply d (.write a.tier a.id a.size data now)).bytes? t id =
      if (t, id) = (0, s.active) then some (recordFormat.writeAll (hist s.active) ++ data)
      else d.bytes? t id := by
  obtain ⟨a', -, ha', htier, -⟩ := hw.active
  cases ha.symm.trans ha'
  have haid : a.id = s.active := hw.id_eq ha
  obtain ⟨hsize, tail, -, hbs⟩ := h.active ha
  rw [htier, haid] at htail ⊢
  have hpre := htail _ hbs
  rw [hsize, List.drop_left] at hpre
  rw [bytes?_write]
  split
  · next heq =>
      obtain ⟨rfl, rfl⟩ := Prod.mk.inj heq
      rw [show d.bytes? 0 s.active = _ from hbs, Option.map_some, hsize, writeAt_of_prefix hpre]
  · rfl

theorem Live.effect {bound : Nat} {es : List Event} (h : Live hist w) (hw : Placed w)
    (he : Effect bound True w es w') :
    Live (hist.after es) w' := by
  cases he with
  | idle ht hf =>
      refine h.frame hw ht ?_ fun _ => hf.bytes _ _
      apply h.sound.sub
      · intro t id bs hbs
        exact ⟨t, bs, hf.bytes t id ▸ hbs, List.prefix_rfl⟩
      · intro t id hint hh
        exact ⟨t, hint, hf.hint t id ▸ hh, List.prefix_rfl⟩
      · intro t id bs hbs
        exact ⟨t, id, bs, Nat.le_refl _, (hf.bytes t id).trans hbs⟩
  | @writeHint s d a ha order =>
      have haid : a.id = s.active := hw.id_eq ha
      refine h.frame hw (SameTables.refl _) ⟨?_, ?_, ?_, h.sound.fits, h.sound.small⟩
        fun _ => bytes?_putHint _ _ _ _ _ _
      · intro t id bs hbs
        rw [bytes?_putHint] at hbs
        exact h.sound.bytes hbs
      · intro t id hint hh
        rw [hint?_putHint] at hh
        split at hh
        · next heq =>
            cases hh
            rw [(Prod.mk.inj heq).2]
            exact fun e => hintOf_describes (h.sound.small _) (fun hl _ => (h.index hl).1) order
        · exact h.sound.hint hh
      · intro id hne
        obtain ⟨t, id', bs, hle, hbs⟩ := h.sound.used hne
        exact ⟨t, id', bs, hle, (bytes?_putHint _ _ _ _ _ _).trans hbs⟩
  | start now hbound hfree hhint hindex hactive htiers hplace =>
      exact h.start hw hindex hactive hplace (fun _ _ => bytes?_create _ _ _ _ _ _)
        fun _ _ => hint?_create _ _ _ _ _ _
  | scribble now ha hr hpre hne hclean =>
      exact h.rewrite rfl ⟨_, hr.fits_record, hpre, hne⟩
        (h.written hw ha (hclean trivial) now) fun _ _ => hint?_write _ _ _ _ _ _ _ _
  | @truncate s d a now ha =>
      obtain ⟨a', -, ha', htier, -⟩ := hw.active
      cases ha.symm.trans ha'
      have haid : a.id = s.active := hw.id_eq ha
      obtain ⟨hsize, tail, -, hbs⟩ := h.active ha
      refine h.rewrite rfl torn_nil_record ?_ fun _ _ => hint?_truncate _ _ _ _ _ _ _
      intro t id
      rw [bytes?_truncate, htier, haid]
      split
      · next heq =>
          obtain ⟨rfl, rfl⟩ := Prod.mk.inj heq
          rw [show d.bytes? 0 s.active = _ from hbs, Option.map_some, hsize,
            truncateTo_of_le (by rw [List.length_append]; omega), List.take_left,
            List.append_nil]
      · rfl
  | append now ha hr hclean hindex hactive htiers hplace =>
      exact h.append hw ha hr hindex hactive hplace
        (h.written hw ha (hclean trivial) now) fun _ _ => hint?_write _ _ _ _ _ _ _ _
  | @linkPack s d id p hp hne hlow =>
      have hid : p.id = id := hw.id_eq hp
      have hkept : ∀ {t i bs}, d.bytes? t i = some bs →
          (FileOp.apply d (.linkPack p.tier p.id)).bytes? t i = some bs := by
        intro t i bs hbs
        rw [bytes?_linkPack, hbs, Option.some_or, ite_self]
      refine h.frame hw (SameTables.refl _) ?_ ?_
      · apply h.sound.sub
        · intro t i bs hbs
          rw [bytes?_linkPack] at hbs
          split at hbs
          · next heq =>
              rcases Option.or_eq_some_iff.mp hbs with hold | ⟨-, hcopy⟩
              · exact ⟨t, bs, hold, List.prefix_rfl⟩
              · rw [(Prod.mk.inj heq).2]
                exact ⟨p.tier, bs, hcopy, List.prefix_rfl⟩
          · exact ⟨t, bs, hbs, List.prefix_rfl⟩
        · intro t i hint hh
          rw [hint?_linkPack] at hh
          exact ⟨t, hint, hh, List.prefix_rfl⟩
        · intro t i bs hbs
          exact ⟨t, i, bs, Nat.le_refl _, hkept hbs⟩
      · intro i q hq
        obtain ⟨bs, hbs⟩ := hw.has_file hq
        exact (hkept hbs).trans (Eq.symm hbs)
  | @linkHint s d id p hp hne hcopy =>
      refine h.frame hw (SameTables.refl _) ?_ fun _ => bytes?_linkHint _ _ _ _ _
      apply h.sound.sub
      · intro t i bs hbs
        rw [bytes?_linkHint] at hbs
        exact ⟨t, bs, hbs, List.prefix_rfl⟩
      · intro t i hint hh
        rw [hint?_linkHint] at hh
        split at hh
        · next heq =>
            rcases Option.or_eq_some_iff.mp hh with hold | ⟨-, hcopied⟩
            · exact ⟨t, hint, hold, List.prefix_rfl⟩
            · rw [(Prod.mk.inj heq).2]
              exact ⟨p.tier, hint, hcopied, List.prefix_rfl⟩
        · exact ⟨t, hint, hh, List.prefix_rfl⟩
      · intro t i bs hbs
        exact ⟨t, i, bs, Nat.le_refl _, (bytes?_linkHint _ _ _ _ _).trans hbs⟩
  | switch hp hne hcopy hhint hindex hactive htiers hplace =>
      rw [hw.id_eq hp] at hcopy ⊢
      exact h.switch hw hp hne hcopy hindex hactive hplace
  | evict hp hne hlast hindex hactive htiers hplace =>
      rw [hw.id_eq hp]
      exact h.evict hw hp hne hindex hactive hplace
  | removeHint hgone hfile =>
      refine h.frame hw (SameTables.refl _) ?_ fun _ => bytes?_removeHint _ _ _ _ _
      apply h.sound.sub
      · intro t i bs hbs
        rw [bytes?_removeHint] at hbs
        exact ⟨t, bs, hbs, List.prefix_rfl⟩
      · intro t i hint hh
        rw [hint?_removeHint] at hh
        split at hh
        · cases hh
        · exact ⟨t, hint, hh, List.prefix_rfl⟩
      · intro t i bs hbs
        exact ⟨t, i, bs, Nat.le_refl _, (bytes?_removeHint _ _ _ _ _).trans hbs⟩

theorem Live.chain {bound : Nat} {es : List Event} (h : Live hist w) (hw : Placed w)
    (hc : Chain bound True w es w') :
    Live (hist.after es) w' := by
  induction hc generalizing hist with
  | nil w => exact h
  | cons he _ ih =>
      rw [History.after_append]
      exact ih (h.effect hw he) (hw.effect he)

end Repkgs.Jigd
