import Repkgs.Jigd.IdsExchange

/-!
# What an identity query brings

Every move of the exchange but one only carries bytes on: the bytes the daemon has not
read yet and those it has given are the same before and after. When it takes a line,
one path leaves the first stream and its identity comes at the end of the second. So
the client gets the identities of its paths in their order, whatever the sockets hold
and however the moves interleave.
-/

namespace Repkgs.Jigd

open Lib Jig

/-- What the client has not sent yet. -/
def Query.unsent : Query → Bytes
  | .sending unsent _ => unsent
  | _ => []

/-- What has come to the client. -/
def Query.received : Query → Bytes
  | .receiving line pending ids _ => ids.flatMap wireLine ++ line ++ pending
  | _ => []

/-- What the daemon holds back behind the bytes in the socket. -/
def Answering.held (written : Bytes) : Answering → Bytes
  | .writing text _ => written ++ text
  | .flushing rest text _ => rest ++ written ++ text
  | .finishing rest => rest ++ written
  | _ => written

/-- How many paths the daemon waits for. -/
def Answering.left : Answering → Nat
  | .paths count | .writing _ count | .flushing _ _ count => count
  | _ => 0

namespace Exchange

/-- The part of the request that the daemon has not taken. -/
def unread (e : Exchange) : Bytes := e.buffered ++ (e.up ++ e.client.unsent)

/-- What is on its way to the client, or there. -/
def came (e : Exchange) : Bytes := e.client.received ++ e.down

/-- All that the daemon has given. -/
def given (e : Exchange) : Bytes := e.came ++ e.daemon.held e.written

end Exchange

/-- A path that no line of the daemon's reader holds. -/
def HasLongPath (paths : List Bytes) : Prop := ∃ path ∈ paths, readerSize ≤ path.length

section

variable {caps : Capacities} {of : Bytes → Bytes} {paths : List Bytes} {e e' : Exchange}

/-- Bytes that are moved in two parts. -/
theorem take_drop_append (l tail : Bytes) (k : Nat) :
    l.take k ++ (l.drop k ++ tail) = l ++ tail := by
  rw [← List.append_assoc, List.take_append_drop]

/-- Before the request, between two paths or behind the last one, or hung up. -/
inductive OnTrack (of : Bytes → Bytes) (paths : List Bytes) (e : Exchange) : Prop
  | fresh (hdaemon : e.daemon = .request) (hunread : e.unread = identitiesRequest paths)
      (hgiven : e.given = [])
  | serving (k : Nat) (hdaemon : e.daemon ≠ .closed) (hk : k + e.daemon.left = paths.length)
      (hunread : e.unread = (paths.drop k).flatMap wireLine)
      (hgiven : e.given = answers of (paths.take k))
  | hungUp (hdaemon : e.daemon = .closed) (hlong : HasLongPath paths)
      (hcame : e.came <+: answers of paths)

theorem prefix_answers_take (k : Nat) : answers of (paths.take k) <+: answers of paths := by
  refine ⟨answers of (paths.drop k), ?_⟩
  rw [answers, answers, answers, ← List.flatMap_append, List.take_append_drop]

theorem OnTrack.isPrefix_came (h : OnTrack of paths e) : e.came <+: answers of paths := by
  have hgiven : e.came <+: e.given := List.prefix_append _ _
  cases h with
  | fresh _ _ hnil => exact (hnil ▸ hgiven).trans List.nil_prefix
  | serving k _ _ _ htake => exact (htake ▸ hgiven).trans (prefix_answers_take k)
  | hungUp _ _ hcame => exact hcame

/-- Bytes are carried on outside the daemon. -/
theorem OnTrack.carry (h : OnTrack of paths e) (hdaemon : e'.daemon = e.daemon)
    (hwritten : e'.written = e.written) (hunread : e'.unread = e.unread)
    (hcame : e'.came = e.came) : OnTrack of paths e' := by
  have hgiven : e'.given = e.given := by
    rw [Exchange.given, Exchange.given, hcame, hdaemon, hwritten]
  cases h with
  | fresh hd hu hg => exact .fresh (hdaemon.trans hd) (hunread.trans hu) (hgiven.trans hg)
  | serving k hd hk hu hg =>
      exact .serving k (hdaemon ▸ hd) (hdaemon ▸ hk) (hunread.trans hu) (hgiven.trans hg)
  | hungUp hd hlong hpre => exact .hungUp (hdaemon.trans hd) hlong (hcame ▸ hpre)

/-- Bytes are carried on inside the daemon, or by it. -/
theorem OnTrack.pass (h : OnTrack of paths e) {a : Answering} (hdaemon : e.daemon = a)
    (hstays : a ≠ .request ∧ a ≠ .closed ∧ e'.daemon ≠ .closed ∧ e'.daemon.left = a.left)
    (hunread : e'.unread = e.unread)
    (hgiven : e'.came ++ e'.daemon.held e'.written = e.came ++ a.held e.written) :
    OnTrack of paths e' := by
  subst hdaemon
  obtain ⟨hrequest, hclosed, hclosed', hleft⟩ := hstays
  cases h with
  | fresh hd _ _ => exact absurd hd hrequest
  | serving k _ hk hu hg =>
      exact .serving k hclosed' (hleft ▸ hk) (hunread.trans hu) (hgiven.trans hg)
  | hungUp hd _ _ => exact absurd hd hclosed

section Lines

variable (hcount : paths.length ≤ 2 ^ 20) (hpaths : ∀ path ∈ paths, chr '\n' ∉ path)
include hcount hpaths

/-- The line that the daemon waits for. -/
theorem OnTrack.next_line (h : OnTrack of paths e) (hreads : e.daemon.reads = true)
    (hne : e.buffered ≠ []) : ∃ line after, e.unread = wireLine line ++ after ∧ chr '\n' ∉ line ∧
      (line.length < readerSize ∨ line ∈ paths) ∧
      ∀ e', e'.daemon = nextLine of e.daemon line → e'.unread = after → e'.came = e.came →
        e'.written = e.written → OnTrack of paths e' := by
  cases h with
  | fresh hd hu hg =>
      refine ⟨_, paths.flatMap wireLine, hu, newline_notMem_header paths, .inl ?_, ?_⟩
      · have hdigits : (decimal paths.length).length ≤ 10 :=
          decimal_length_le (hcount.trans_lt (by decide))
        rw [List.length_append]
        change 4 + (decimal paths.length).length < 2 ^ 16
        omega
      · intro e' hdaemon hunread hcame hwritten
        rw [hd, nextLine, parseRequest_ids hcount] at hdaemon
        refine .serving 0 (by simp [hdaemon]) (by simp [hdaemon, Answering.left]) hunread ?_
        rw [Exchange.given, hcame, hwritten, hdaemon]
        rw [Exchange.given, hd] at hg
        exact hg
  | serving k hd hk hu hg =>
      cases hdaemon : e.daemon with
      | request =>
          -- the request is answered, and nothing comes behind it
          rw [hdaemon] at hk
          rw [show k = paths.length from hk, List.drop_length] at hu
          exact absurd (List.append_eq_nil_iff.mp hu).1 hne
      | paths count =>
          rw [hdaemon] at hk hreads
          cases count with
          | zero => cases hreads
          | succ count =>
              rw [Answering.left] at hk
              have hlt : k < paths.length := by omega
              rw [List.drop_eq_getElem_cons hlt, List.flatMap_cons] at hu
              refine ⟨paths[k], _, hu, hpaths _ (List.getElem_mem hlt),
                .inr (List.getElem_mem hlt), fun e' hdaemon' hunread hcame hwritten => ?_⟩
              rw [nextLine] at hdaemon'
              refine .serving (k + 1) (by simp [hdaemon']) ?_ hunread ?_
              · rw [hdaemon', Answering.left]
                omega
              · rw [Exchange.given, hdaemon] at hg
                change e.came ++ e.written = _ at hg
                rw [Exchange.given, hdaemon', Answering.held, hcame, hwritten, ← List.append_assoc,
                  hg, ← List.take_append_getElem hlt, answers, answers, List.flatMap_append,
                  List.flatMap_singleton]
                rfl
      | writing _ _ | flushing _ _ _ | finishing _ | closed =>
          rw [hdaemon] at hreads
          cases hreads
  | hungUp hd _ _ =>
      rw [hd] at hreads
      cases hreads

/-- The daemon takes a line, or hangs up because its reader is full. -/
theorem OnTrack.read_line (h : OnTrack of paths e) (hreads : e.daemon.reads = true)
    (hstep : (if chr '\n' ∈ e.buffered then
        some { e with daemon := nextLine of e.daemon (cut (chr '\n') e.buffered).1
                      buffered := (cut (chr '\n') e.buffered).2.drop 1 }
      else if readerSize ≤ e.buffered.length then some { e with daemon := .closed }
      else none) = some e') : OnTrack of paths e' := by
  have hcame := h.isPrefix_came
  split at hstep
  · next hmem =>
    cases hstep
    obtain ⟨line, after, hunread, hline, -, hnext⟩ :=
      h.next_line hcount hpaths hreads (List.ne_nil_of_mem hmem)
    obtain ⟨hfirst, hrest⟩ := line_of_buffered hline hmem hunread
    exact hnext _ (congrArg (nextLine of e.daemon) hfirst) hrest rfl rfl
  · next hmem =>
    split at hstep
    · next hfull =>
      cases hstep
      have hne : e.buffered ≠ [] := by
        rintro hnil
        rw [hnil] at hfull
        exact absurd hfull (by decide)
      obtain ⟨line, after, hunread, -, hlen, -⟩ := h.next_line hcount hpaths hreads hne
      refine .hungUp rfl ?_ hcame
      -- without a newline, what is buffered is the start of the line
      rw [Exchange.unread, wireLine, List.append_assoc] at hunread
      have hpre : e.buffered.length ≤ line.length := by
        by_contra hlt
        have hstart : line ++ [chr '\n'] <+: line ++ ([chr '\n'] ++ after) :=
          ⟨after, List.append_assoc _ _ _⟩
        refine hmem ((List.prefix_of_prefix_length_le hstart ⟨_, hunread⟩ ?_).subset (by simp))
        rw [List.length_append, List.length_singleton]
        omega
      rcases hlen with hlen | hlen
      · omega
      · exact ⟨line, hlen, hfull.trans hpre⟩
    · cases hstep

theorem OnTrack.daemon (h : OnTrack of paths e) (hstep : e.daemon? of = some e') :
    OnTrack of paths e' := by
  unfold Exchange.daemon? at hstep
  split at hstep
  · next hd =>
    cases hstep
    exact h.pass hd (by simp [Answering.left]) rfl (by simp [Exchange.came, Answering.held])
  · next text count hd =>
    split at hstep
    all_goals
      cases hstep
      exact h.pass hd (by simp [Answering.left]) rfl (by simp [Exchange.came, Answering.held])
  · next text count hd =>
    cases hstep
    exact h.pass hd (by simp [Answering.left]) rfl (by simp [Exchange.came, Answering.held])
  · next hd =>
    cases hstep
    exact h.pass hd (by simp [Answering.left]) rfl (by simp [Exchange.came, Answering.held])
  · next hd => exact h.read_line hcount hpaths (by rw [hd]; rfl) hstep
  · next count _ hd =>
    cases count with
    | zero => contradiction
    | succ count => exact h.read_line hcount hpaths (by rw [hd]; rfl) hstep
  · cases hstep

end Lines

/-- Lists of lines are compared line by line. -/
theorem prefix_of_lines {ls ms : List Bytes} (hls : ∀ l ∈ ls, chr '\n' ∉ l)
    (hms : ∀ m ∈ ms, chr '\n' ∉ m) (h : ls.flatMap wireLine <+: ms.flatMap wireLine) :
    ls <+: ms := by
  induction ls generalizing ms with
  | nil => exact List.nil_prefix
  | cons l ls ih =>
      obtain ⟨rest, h⟩ := h
      cases ms with
      | nil => simp [wireLine] at h
      | cons m ms =>
          simp only [List.flatMap_cons, wireLine, List.append_assoc, List.singleton_append] at h
          obtain ⟨rfl, hmore⟩ := append_cons_inj (hls l (.head _)) (hms m (.head _)) h
          exact (List.prefix_cons_inj l).mpr (ih (fun x hx => hls x (.tail _ hx))
            (fun x hx => hms x (.tail _ hx)) ⟨rest, hmore⟩)

/-- The invariant of the exchange, by where the client stands. -/
def Exchange.Faithful (of : Bytes → Bytes) (paths : List Bytes) (e : Exchange) : Prop :=
  match e.client with
  | .sending _ count => count = paths.length ∧ OnTrack of paths e
  | .receiving line _ ids count => (ids.length + count = paths.length ∧ chr '\n' ∉ line ∧
      ∀ id ∈ ids, chr '\n' ∉ id) ∧ OnTrack of paths e
  | .done ids => ids = paths.map of ∨ ids = [] ∧ HasLongPath paths

/-- A move that leaves the client where it is. -/
theorem Exchange.Faithful.congr (h : e.Faithful of paths) (hclient : e'.client = e.client)
    (htrack : OnTrack of paths e → OnTrack of paths e') : e'.Faithful of paths := by
  unfold Exchange.Faithful at h ⊢
  rw [hclient]
  split at h
  · exact ⟨h.1, htrack h.2⟩
  · exact ⟨h.1, htrack h.2⟩
  · exact h

theorem OnTrack.long_of_closed (h : OnTrack of paths e) (hclosed : e.daemon = .closed) :
    HasLongPath paths := by
  cases h with
  | fresh hd _ _ => rw [hd] at hclosed; cases hclosed
  | serving _ hd _ _ _ => exact absurd hclosed hd
  | hungUp _ hlong _ => exact hlong

theorem Exchange.Faithful.client (hof : ∀ path ∈ paths, chr '\n' ∉ of path)
    (h : e.Faithful of paths) {next : Query} (hnext : e.client? = some next) :
    { e with client := next }.Faithful of paths := by
  unfold Exchange.client? at hnext
  unfold Exchange.Faithful at h
  split at hnext
  · next count hclient =>
    cases hnext
    rw [hclient] at h
    refine ⟨⟨by simpa using h.1, by simp, by simp⟩, h.2.carry rfl rfl ?_ ?_⟩
    · simp [Exchange.unread, hclient, Query.unsent]
    · simp [Exchange.came, hclient, Query.received]
  · next unsent count hne hclient =>
    rw [hclient] at h
    split at hnext
    · next hclosed =>
      cases hnext
      exact .inr ⟨rfl, h.2.long_of_closed hclosed⟩
    · cases hnext
  · next line pending ids hclient =>
    cases hnext
    rw [hclient] at h
    obtain ⟨⟨hcount, -, hids⟩, htrack⟩ := h
    -- what came starts with these lines, and the identities have no newline either
    have hcame : ids.flatMap wireLine <+: (paths.map of).flatMap wireLine := by
      rw [List.flatMap_map]
      refine List.IsPrefix.trans ?_ htrack.isPrefix_came
      rw [Exchange.came, hclient, Query.received, List.append_assoc, List.append_assoc]
      exact List.prefix_append _ _
    have hpre := prefix_of_lines hids (by simpa using hof) hcame
    exact .inl (hpre.eq_of_length (by rw [List.length_map]; exact hcount))
  · next line pending ids count hclient =>
    rw [hclient] at h
    obtain ⟨⟨hcount, hline, hids⟩, htrack⟩ := h
    split at hnext
    · next hmem =>
      cases hnext
      refine ⟨⟨?_, by simp, ?_⟩, htrack.carry rfl rfl ?_ ?_⟩
      · rw [List.length_append, List.length_singleton]
        omega
      · intro id hid
        rcases List.mem_append.mp hid with hid | hid
        · exact hids id hid
        · rw [List.mem_singleton.mp hid, List.mem_append, not_or]
          exact ⟨hline, notMem_cut_fst _ _⟩
      · simp [Exchange.unread, hclient, Query.unsent]
      · have hcut := cut_of_mem hmem
        simp only [Exchange.came, hclient, Query.received, List.flatMap_append,
          List.flatMap_singleton, wireLine]
        conv_rhs => rw [hcut]
        simp
    · split at hnext
      · next hclosed =>
        cases hnext
        exact .inr ⟨rfl, htrack.long_of_closed hclosed.1⟩
      · cases hnext
  · cases hnext

theorem Exchange.Faithful.start : (startQuery paths).Faithful of paths := by
  cases paths with
  | nil => exact .inl rfl
  | cons path paths => exact ⟨rfl, .fresh rfl rfl rfl⟩

theorem Exchange.Faithful.step (hcount : paths.length ≤ 2 ^ 20)
    (hpaths : ∀ path ∈ paths, chr '\n' ∉ path ∧ chr '\n' ∉ of path) (h : e.Faithful of paths)
    {move : Move} (hstep : exchangeStep caps of e move = some e') : e'.Faithful of paths := by
  cases move with
  | send k =>
      simp only [exchangeStep] at hstep
      split at hstep
      · next unsent count hclient =>
        obtain ⟨-, ⟨⟩⟩ := Option.ite_none_right_eq_some.mp hstep
        unfold Exchange.Faithful at h
        rw [hclient] at h
        refine ⟨h.1, h.2.carry rfl rfl ?_ ?_⟩
        · simp [Exchange.unread, hclient, Query.unsent]
        · simp [Exchange.came, hclient, Query.received]
      · cases hstep
  | receive k =>
      simp only [exchangeStep] at hstep
      split at hstep
      · next line pending ids count hclient =>
        obtain ⟨hk, ⟨⟩⟩ := Option.ite_none_right_eq_some.mp hstep
        unfold Exchange.Faithful at h
        rw [hclient] at h
        obtain ⟨⟨hlen, hline, hids⟩, htrack⟩ := h
        refine ⟨⟨hlen, by simp [hline, hk.1], hids⟩, htrack.carry rfl rfl ?_ ?_⟩
        · simp [Exchange.unread, hclient, Query.unsent]
        · simp [Exchange.came, hclient, Query.received]
      · cases hstep
  | client =>
      obtain ⟨next, hnext, rfl⟩ := Option.map_eq_some_iff.mp hstep
      exact h.client (fun path hpath => (hpaths path hpath).2) hnext
  | read k =>
      simp only [exchangeStep, Option.ite_none_right_eq_some, Option.some.injEq] at hstep
      obtain ⟨-, rfl⟩ := hstep
      refine h.congr rfl fun htrack => htrack.carry rfl rfl ?_ rfl
      simp [Exchange.unread, take_drop_append]
  | write k =>
      simp only [exchangeStep] at hstep
      split at hstep
      · next rest text count hd =>
        obtain ⟨-, ⟨⟩⟩ := Option.ite_none_right_eq_some.mp hstep
        refine h.congr rfl fun htrack => htrack.pass hd (by simp [Answering.left]) rfl ?_
        simp [Exchange.came, Answering.held, take_drop_append]
      · next rest hd =>
        obtain ⟨-, ⟨⟩⟩ := Option.ite_none_right_eq_some.mp hstep
        refine h.congr rfl fun htrack => htrack.pass hd (by simp [Answering.left]) rfl ?_
        simp [Exchange.came, Answering.held, take_drop_append]
      · cases hstep
  | daemon =>
      have hclient : e'.client = e.client := by
        grind [exchangeStep, Exchange.daemon?]
      exact h.congr hclient fun htrack =>
        htrack.daemon hcount (fun path hpath => (hpaths path hpath).1) hstep

end

/-- Whatever the sockets hold and however the two sides take turns, a query that is done has
the identities of its paths in their order. It is done without them only if the daemon hung
up, because a path is longer than its reader. -/
theorem ids_answers_in_order (caps : Capacities) (of : Bytes → Bytes) {paths : List Bytes}
    (hcount : paths.length ≤ 2 ^ 20)
    (hpaths : ∀ path ∈ paths, chr '\n' ∉ path ∧ chr '\n' ∉ of path) {e : Exchange}
    (h : Reachable (exchangeStep caps of) (startQuery paths) e) {ids : List Bytes}
    (hdone : e.client = .done ids) : ids = paths.map of ∨ ids = [] ∧ HasLongPath paths := by
  have hfaithful : e.Faithful of paths :=
    h.invariant Exchange.Faithful.start fun _ _ _ hinv hstep => hinv.step hcount hpaths hstep
  unfold Exchange.Faithful at hfaithful
  rw [hdone] at hfaithful
  exact hfaithful

/-- Two paths over sockets of five bytes, the second answer in two parts. -/
def smallRun : List Move :=
  [.send 5, .read 5, .send 5, .read 5, .daemon, .daemon, .daemon, .daemon, .daemon, .daemon,
    .write 5, .client, .receive 4, .client, .write 1, .receive 2, .client, .client]

theorem ids_answers_in_order_small : ∃ e ids,
    run (exchangeStep ⟨5, 5⟩ fun path => path ++ path) (startQuery [ascii "a", ascii "b"])
      smallRun = some e ∧ e.client = .done ids ∧ ids = [ascii "aa", ascii "bb"] := by
  obtain ⟨e, ids, he, hdone, hne⟩ : ∃ e ids, run (exchangeStep ⟨5, 5⟩ fun path => path ++ path)
      (startQuery [ascii "a", ascii "b"]) smallRun = some e ∧ e.client = .done ids ∧ ids ≠ [] :=
    ⟨_, _, rfl, rfl, List.cons_ne_nil _ _⟩
  have hids := ids_answers_in_order _ _ (by decide) (by decide) ⟨smallRun, he⟩ hdone
  exact ⟨e, ids, he, hdone, hids.resolve_right fun h => hne h.1⟩

end Repkgs.Jigd
