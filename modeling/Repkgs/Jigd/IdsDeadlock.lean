import Repkgs.Jigd.IdsExchange

/-!
# When an identity query hangs

The client sends line by line while the daemon keeps up with it, until an answer
does not fit the socket any more. The daemon then waits in its write, the client
fills the socket and waits too.
-/

namespace Repkgs.Jigd

open Lib Jig

section Reach

variable {caps : Capacities} {of : Bytes → Bytes} {count n : Nat} {rest down written : Bytes}
  {daemon : Answering}

/-- The client sends a line while the daemon waits for it. -/
theorem reach_line (hup : 0 < caps.up) (hreads : daemon.reads = true) {text buffered : Bytes}
    (htext : chr '\n' ∉ text) (hbuffered : chr '\n' ∉ buffered)
    (hlen : buffered.length + text.length < readerSize) :
    Reachable (exchangeStep caps of)
      ⟨.sending (text ++ chr '\n' :: rest) n, [], down, buffered, daemon, written⟩
      ⟨.sending rest n, [], down, buffered ++ text ++ [chr '\n'], daemon, written⟩ := by
  have hopen : daemon ≠ .closed := by
    rintro rfl
    cases hreads
  have hbyte : ∀ (b : Byte) (more buffered : Bytes), chr '\n' ∉ buffered →
      buffered.length < readerSize → Reachable (exchangeStep caps of)
        ⟨.sending (b :: more) n, [], down, buffered, daemon, written⟩
        ⟨.sending more n, [], down, buffered ++ [b], daemon, written⟩ := by
    intro b more buffered hnl hroom
    have hsend : exchangeStep caps of
        ⟨.sending (b :: more) n, [], down, buffered, daemon, written⟩ (.send 1) =
        some ⟨.sending more n, [b], down, buffered, daemon, written⟩ :=
      if_pos ⟨hopen, Nat.one_pos, Nat.succ_le_succ (Nat.zero_le _), hup⟩
    have hread : exchangeStep caps of ⟨.sending more n, [b], down, buffered, daemon, written⟩
        (.read 1) = some ⟨.sending more n, [], down, buffered ++ [b], daemon, written⟩ :=
      if_pos ⟨hreads, hnl, Nat.one_pos, Nat.le_refl _, hroom⟩
    exact (Reachable.single hsend).snoc hread
  induction text generalizing buffered with
  | nil =>
      rw [List.append_nil]
      exact hbyte _ _ _ hbuffered hlen
  | cons b text ih =>
      rw [List.mem_cons, not_or] at htext
      rw [List.length_cons] at hlen
      have hnl : chr '\n' ∉ buffered ++ [b] := by simpa using ⟨hbuffered, htext.1⟩
      have hrest := ih htext.2 hnl (by rw [List.length_append, List.length_singleton]; omega)
      rw [List.append_assoc buffered, List.singleton_append] at hrest
      exact (hbyte b _ _ hbuffered (by omega)).trans hrest

/-- The daemon takes the line. -/
theorem reach_nextLine {client : Query} (hreads : daemon.reads = true) {text : Bytes}
    (htext : chr '\n' ∉ text) :
    Reachable (exchangeStep caps of) ⟨client, [], down, text ++ [chr '\n'], daemon, written⟩
      ⟨client, [], down, [], nextLine of daemon text, written⟩ := by
  have hcut : cut (chr '\n') (text ++ [chr '\n']) = (text, [chr '\n']) := cut_append_cons htext []
  refine Reachable.single (l := .daemon) ?_
  change Exchange.daemon? of _ = _
  have hmem : chr '\n' ∈ text ++ [chr '\n'] := List.mem_append_right _ (List.mem_singleton_self _)
  cases daemon with
  | request => simp only [Exchange.daemon?, if_pos hmem, hcut]; rfl
  | paths count =>
      cases count with
      | zero => cases hreads
      | succ count => simp only [Exchange.daemon?, if_pos hmem, hcut]; rfl
  | writing _ _ | flushing _ _ _ | finishing _ | closed => cases hreads

/-- The daemon's state after an answer went into its writer. -/
structure Settled (caps : Capacities) (down written given : Bytes) : Prop where
  given : down ++ written = given
  blocks : writerSize ∣ down.length
  fits : written.length ≤ writerSize
  room : down.length ≤ caps.down

/-- A part of a block goes to the socket. -/
theorem reach_flush {client : Query} (block text : Bytes) {k : Nat} (hk : k ≤ block.length)
    (hcap : down.length + k ≤ caps.down) :
    Reachable (exchangeStep caps of) ⟨client, [], down, [], .flushing block text count, []⟩
      ⟨client, [], down ++ block.take k, [], .flushing (block.drop k) text count, []⟩ := by
  cases k with
  | zero =>
      rw [List.take_zero, List.append_nil]
      exact Reachable.refl _
  | succ k => exact Reachable.single (l := .write (k + 1)) (if_pos ⟨Nat.succ_pos k, hk, hcap⟩)

/-- The daemon writes an answer, or comes to a write for which there is no room. -/
theorem reach_answer (of : Bytes → Bytes) (count : Nat) (client : Query) (down written text : Bytes)
    (hblocks : writerSize ∣ down.length) (hfits : written.length ≤ writerSize) (htext : text ≠ [])
    (hroom : down.length ≤ caps.down) :
    (∃ down' written', Reachable (exchangeStep caps of)
        ⟨client, [], down, [], .writing text count, written⟩
        ⟨client, [], down', [], .paths count, written'⟩ ∧
        Settled caps down' written' (down ++ written ++ text)) ∨
      ∃ down' rest text', Reachable (exchangeStep caps of)
        ⟨client, [], down, [], .writing text count, written⟩
        ⟨client, [], down', [], .flushing rest text' count, []⟩ ∧
        rest ≠ [] ∧ caps.down ≤ down'.length := by
  induction hn : written.length + text.length using Nat.strongRecOn
    generalizing down written text with
  | _ total ih =>
      by_cases hsmall : text.length ≤ writerSize - written.length
      · -- the text fits the buffer
        left
        refine ⟨down, written ++ text, Reachable.single (l := .daemon) (if_pos hsmall), ?_⟩
        refine ⟨(List.append_assoc ..).symm, hblocks, ?_, hroom⟩
        rw [List.length_append]
        omega
      · -- the buffer is filled and passed on
        obtain ⟨block, hblock⟩ : ∃ b, b = written ++ text.take (writerSize - written.length) :=
          ⟨_, rfl⟩
        obtain ⟨later, hlater⟩ : ∃ l, l = text.drop (writerSize - written.length) := ⟨_, rfl⟩
        have hfull : block.length = writerSize := by
          rw [hblock, List.length_append, List.length_take]
          omega
        have hshort : later.length = written.length + text.length - writerSize := by
          rw [hlater, List.length_drop]
          omega
        have hne : later ≠ [] := by
          rw [hlater, ne_eq, List.drop_eq_nil_iff]
          exact hsmall
        have hsplit : written ++ text = block ++ later := by
          rw [hblock, hlater, List.append_assoc, List.take_append_drop]
        have hbegin : Reachable (exchangeStep caps of)
            ⟨client, [], down, [], .writing text count, written⟩
            ⟨client, [], down, [], .flushing block later count, []⟩ := by
          rw [hblock, hlater]
          exact Reachable.single (l := .daemon) (if_neg hsmall)
        have hpos : 0 < writerSize := by decide
        by_cases hcap : down.length + writerSize ≤ caps.down
        · -- there is room for the whole block
          have hall := hbegin.trans (reach_flush block later hfull.ge hcap)
          rw [← hfull, List.take_length, List.drop_length] at hall
          have hagain : exchangeStep caps of
              ⟨client, [], down ++ block, [], .flushing [] later count, []⟩ .daemon =
              some ⟨client, [], down ++ block, [], .writing later count, []⟩ := rfl
          have hreach := hall.snoc hagain
          have hlen : (down ++ block).length = down.length + writerSize := by
            rw [List.length_append, hfull]
          have hnext := ih (([] : Bytes).length + later.length)
            (by rw [List.length_nil, hshort]; omega) (down ++ block) [] later
            (by rw [hlen]; exact Nat.dvd_add_self_right.mpr hblocks) (Nat.zero_le _) hne
            (by rw [hlen]; exact hcap) rfl
          rcases hnext with ⟨down', written', hr, hsettled⟩ | ⟨down', rest, text', hr, hrest⟩
          · refine Or.inl ⟨down', written', hreach.trans hr, ?_⟩
            rw [List.append_assoc, hsplit, ← List.append_assoc]
            rwa [List.append_nil] at hsettled
          · exact Or.inr ⟨down', rest, text', hreach.trans hr, hrest⟩
        · -- the write stops where the socket is full
          right
          refine ⟨_, _, later, hbegin.trans (reach_flush block later
            (k := caps.down - down.length) (by omega) (by omega)), ?_, ?_⟩
          · rw [ne_eq, List.drop_eq_nil_iff]
            omega
          · rw [List.length_append, List.length_take]
            omega

/-- The daemon has taken `k` paths and waits for the next one. -/
def AfterPaths (caps : Capacities) (of : Bytes → Bytes) (paths : List Bytes) (k : Nat) : Prop :=
  ∃ down written, Reachable (exchangeStep caps of) (startQuery paths)
      ⟨.sending ((paths.drop k).flatMap wireLine) paths.length, [], down, [],
        .paths (paths.length - k), written⟩ ∧
    Settled caps down written (answers of (paths.take k))

/-- The daemon waits for room with the answer to the `k`-th path. -/
def StuckAt (caps : Capacities) (of : Bytes → Bytes) (paths : List Bytes) (k : Nat) : Prop :=
  ∃ down rest text count, Reachable (exchangeStep caps of) (startQuery paths)
      ⟨.sending ((paths.drop k).flatMap wireLine) paths.length, [], down, [],
        .flushing rest text count, []⟩ ∧
    rest ≠ [] ∧ caps.down ≤ down.length

variable {paths : List Bytes}

theorem Settled.passedOn {given : Bytes} (h : Settled caps down written given) :
    passedOn given.length ≤ caps.down := by
  obtain ⟨blocks, hblocks⟩ := h.blocks
  have hgiven := congrArg List.length h.given
  rw [List.length_append] at hgiven
  have hdiv : (given.length - 1) / writerSize ≤ blocks := by
    rw [Nat.div_le_iff_le_mul_add_pred (by decide)]
    have := h.fits
    simp only [writerSize] at *
    omega
  calc Jigd.passedOn given.length ≤ blocks * writerSize := Nat.mul_le_mul_right _ hdiv
    _ = down.length := by rw [hblocks, Nat.mul_comm]
    _ ≤ caps.down := h.room

/-- Where the daemon is stuck the client fills the socket. -/
theorem StuckAt.blocked {k : Nat} (h : StuckAt caps of paths k)
    (hlong : caps.up < ((paths.drop k).flatMap wireLine).length) :
    ∃ e, Reachable (exchangeStep caps of) (startQuery paths) e ∧ e.ClientBlocked caps ∧
      e.DaemonBlocked caps := by
  obtain ⟨down, rest, text, count, hreach, hrest, hdown⟩ := h
  generalize (paths.drop k).flatMap wireLine = unsent at *
  have hfilled : ∃ up, up.length = caps.up ∧ Reachable (exchangeStep caps of) (startQuery paths)
      ⟨.sending (unsent.drop caps.up) paths.length, up, down, [], .flushing rest text count,
        []⟩ := by
    cases hcap : caps.up with
    | zero => exact ⟨[], rfl, hreach⟩
    | succ c =>
        refine ⟨unsent.take (c + 1), ?_, hreach.snoc (l := .send (c + 1)) (if_pos ?_)⟩
        · rw [List.length_take]
          omega
        · refine ⟨nofun, Nat.succ_pos c, ?_, ?_⟩
          · omega
          · rw [List.length_nil]
            omega
  obtain ⟨up, hlen, hr⟩ := hfilled
  refine ⟨_, hr, ⟨_, _, rfl, ?_, hlen.ge, nofun⟩, hdown, Or.inl ⟨_, _, _, rfl, hrest⟩⟩
  rw [ne_eq, List.drop_eq_nil_iff]
  omega

section Paths

variable (hup : 0 < caps.up) (hne : paths ≠ []) (hcount : paths.length ≤ 2 ^ 20)
include hup hne hcount

theorem afterPaths_zero : AfterPaths caps of paths 0 := by
  have hheader := newline_notMem_header paths
  have hlen : (decimal paths.length).length ≤ 7 :=
    decimal_length_le (hcount.trans_lt (by decide))
  have hstart : startQuery paths =
      ⟨.sending ((ascii "IDS " ++ decimal paths.length) ++ chr '\n' :: paths.flatMap wireLine)
        paths.length, [], [], [], .request, []⟩ := by
    rw [startQuery, if_neg (by simpa using hne), identitiesRequest, wireLine, List.append_assoc]
    rfl
  have hroom : ([] : Bytes).length + (ascii "IDS " ++ decimal paths.length).length <
      readerSize := by
    have hword : (ascii "IDS ").length = 4 := rfl
    rw [List.length_nil, List.length_append, hword, readerSize]
    omega
  have hline : Reachable (exchangeStep caps of) (startQuery paths)
      ⟨.sending (paths.flatMap wireLine) paths.length, [], [],
        (ascii "IDS " ++ decimal paths.length) ++ [chr '\n'], .request, []⟩ := by
    rw [hstart]
    exact reach_line hup rfl hheader List.not_mem_nil hroom
  have htaken := hline.trans (reach_nextLine rfl hheader)
  rw [nextLine, parseRequest_ids hcount] at htaken
  exact ⟨[], [], htaken, rfl, Nat.dvd_zero _, Nat.zero_le _, Nat.zero_le _⟩

theorem afterPaths_or_stuck (hpaths : ∀ path ∈ paths, chr '\n' ∉ path) {k : Nat}
    (hk : k ≤ paths.length)
    (hshort : ∀ path ∈ paths.take k, path.length < readerSize) :
    AfterPaths caps of paths k ∨ ∃ i ≤ k, StuckAt caps of paths i := by
  induction k with
  | zero => exact Or.inl (afterPaths_zero hup hne hcount)
  | succ k ih =>
      have hlt : k < paths.length := hk
      have htake : paths.take (k + 1) = paths.take k ++ [paths[k]] :=
        (List.take_append_getElem hlt).symm
      have hold := ih (Nat.le_of_lt hlt) fun path hpath =>
        hshort path (htake ▸ List.mem_append_left _ hpath)
      rcases hold with ⟨down, written, hreach, hsettled⟩ | ⟨i, hi, hstuck⟩
      · obtain ⟨count, hcnt⟩ : ∃ count, paths.length - k = count + 1 :=
          ⟨paths.length - (k + 1), by omega⟩
        have hnl := hpaths paths[k] (List.getElem_mem hlt)
        rw [hcnt, List.drop_eq_getElem_cons hlt, List.flatMap_cons, wireLine,
          List.append_assoc] at hreach
        have hline := hreach.trans (reach_line hup rfl hnl List.not_mem_nil (by
          rw [List.length_nil, Nat.zero_add]
          exact hshort _ (htake ▸ List.mem_append_right _ (List.mem_singleton_self _))))
        have hwriting := hline.trans (reach_nextLine rfl hnl)
        have hanswer := reach_answer of count
          (.sending ((paths.drop (k + 1)).flatMap wireLine) paths.length) down written
          (of paths[k] ++ [chr '\n']) hsettled.blocks hsettled.fits (by simp) hsettled.room
        rcases hanswer with ⟨down', written', hr, hs⟩ | ⟨down', rest, text, hr, hrest⟩
        · left
          refine ⟨down', written', ?_, ?_⟩
          · rw [show paths.length - (k + 1) = count by omega]
            exact hwriting.trans hr
          · rw [htake, answers, List.flatMap_append, List.flatMap_singleton]
            rw [hsettled.given] at hs
            exact hs
        · exact Or.inr ⟨k + 1, Nat.le_refl _, down', rest, text, count, hwriting.trans hr, hrest⟩
      · exact Or.inr ⟨i, Nat.le_succ_of_le hi, hstuck⟩

/-- Answers that do not fit the socket, and more paths than it holds behind them. -/
theorem reach_blocked (hpaths : ∀ path ∈ paths, chr '\n' ∉ path) {k : Nat}
    (hk : k ≤ paths.length) (hshort : ∀ path ∈ paths.take k, path.length < readerSize)
    (hanswers : caps.down < passedOn (answers of (paths.take k)).length)
    (hrest : caps.up < ((paths.drop k).flatMap wireLine).length) :
    ∃ e, Reachable (exchangeStep caps of) (startQuery paths) e ∧ e.ClientBlocked caps ∧
      e.DaemonBlocked caps := by
  rcases afterPaths_or_stuck hup hne hcount hpaths hk hshort with
    ⟨down, written, -, hsettled⟩ | ⟨i, hi, hstuck⟩
  · exact absurd hsettled.passedOn (Nat.not_le_of_lt hanswers)
  · refine hstuck.blocked (hrest.trans_le ?_)
    exact ((List.drop_sublist_drop_left paths hi).flatMap wireLine).length_le

end Paths

end Reach

/-- The exchange cannot come to a state where both sides wait for room in the
socket, unless the answers to some of the paths overflow one direction while the
paths behind them overflow the other. -/
theorem ids_never_deadlock_iff (caps : Capacities) (of : Bytes → Bytes) (paths : List Bytes)
    (hcount : paths.length ≤ 2 ^ 20) (hpaths : ∀ path ∈ paths, chr '\n' ∉ path) :
    (∀ e, Reachable (exchangeStep caps of) (startQuery paths) e →
      ¬ (e.ClientBlocked caps ∧ e.DaemonBlocked caps)) ↔
    (0 < caps.up → ∀ k ≤ paths.length, (∀ path ∈ paths.take k, path.length < readerSize) →
      caps.down < passedOn (answers of (paths.take k)).length →
      ((paths.drop k).flatMap wireLine).length ≤ caps.up) := by
  constructor
  · intro hfree hup k hk hshort hanswers
    by_contra hrest
    have hne : paths ≠ [] := by
      rintro rfl
      simp at hrest
    obtain ⟨e, hreach, hclient, hdaemon⟩ :=
      reach_blocked hup hne hcount hpaths hk hshort hanswers (Nat.lt_of_not_le hrest)
    exact hfree e hreach ⟨hclient, hdaemon⟩
  · rintro hcond e hreach ⟨hclient, hdaemon⟩
    have hinv : SendInv of paths e := SendInv.reachable hcount hpaths hreach
    obtain ⟨k, hk, hshort, hanswers, hrest⟩ := hinv.blocked hclient hdaemon
    refine absurd (hcond ?_ k hk hshort hanswers) (Nat.not_le_of_lt hrest)
    refine Nat.pos_of_ne_zero fun hzero => ?_
    have hidle := (Untouched.reachable hzero hreach).daemon
    obtain ⟨-, ⟨rest, text, left, hflush, -⟩ | ⟨rest, hfinish, -⟩⟩ := hdaemon
    · exact absurd (hidle.symm.trans hflush) nofun
    · exact absurd (hidle.symm.trans hfinish) nofun

theorem ids_never_deadlock_iff_small :
    [ascii "/a", ascii "/b"].length ≤ 2 ^ 20 ∧
      ∀ e, Reachable (exchangeStep ⟨16, 0⟩ fun _ => ascii "C:00")
          (startQuery [ascii "/a", ascii "/b"]) e →
        ¬ (e.ClientBlocked ⟨16, 0⟩ ∧ e.DaemonBlocked ⟨16, 0⟩) := by
  refine ⟨by decide, (ids_never_deadlock_iff ⟨16, 0⟩ (fun _ => ascii "C:00")
    [ascii "/a", ascii "/b"] (by decide) (by decide)).mpr fun _ k hk _ hanswers => ?_⟩
  change k ≤ 2 at hk
  revert hanswers
  interval_cases k <;> decide

/-- A header in the store, by a path of a hundred bytes. -/
def headerPath : Bytes := ascii "/nix/store/" ++ List.replicate 89 (chr 'h')

/-- An identity as the daemon gives it. -/
def identityText : Bytes := ascii "C:" ++ List.replicate 32 (chr '0')

theorem length_flatMap_replicate (n : Nat) (path : Bytes) (f : Bytes → Bytes) :
    ((List.replicate n path).flatMap f).length = n * (f path).length := by
  induction n with
  | zero => simp
  | succ n ih => rw [List.replicate_succ, List.flatMap_cons, List.length_append, ih]; ring

/-- Ten thousand headers with the usual socket buffers of 212992 bytes. -/
theorem ids_deadlock_headers :
    ∃ e, Reachable (exchangeStep ⟨212992, 212992⟩ fun _ => identityText)
        (startQuery (List.replicate 10000 headerPath)) e ∧
      e.ClientBlocked ⟨212992, 212992⟩ ∧ e.DaemonBlocked ⟨212992, 212992⟩ := by
  have hpath : chr '\n' ∉ headerPath := by decide
  have hall : ∀ path ∈ List.replicate 10000 headerPath, path = headerPath :=
    fun path hmem => List.eq_of_mem_replicate hmem
  have hanswer : (wireLine identityText).length = 35 := by decide
  have hline : (wireLine headerPath).length = 101 := by decide
  refine reach_blocked (k := 7000) (by decide) ?_ ?_ ?_ ?_ ?_ ?_ ?_
  · rw [ne_eq, ← List.length_eq_zero_iff, List.length_replicate]
    decide
  · rw [List.length_replicate]
    decide
  · exact fun path hmem => hall path hmem ▸ hpath
  · rw [List.length_replicate]
    decide
  · intro path hmem
    rw [hall path (List.mem_of_mem_take hmem)]
    decide
  · rw [answers, List.take_replicate, length_flatMap_replicate, hanswer]
    decide
  · rw [List.drop_replicate, length_flatMap_replicate, hline]
    decide

end Repkgs.Jigd
