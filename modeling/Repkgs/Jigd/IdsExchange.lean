import Repkgs.Lib.Runs
import Repkgs.Jigd.Request
import Repkgs.Jig.Numbers

/-!
# An identity query over bounded channels

`CacheClient::Identities` writes its whole request before it reads an answer,
while `ids` of the daemon answers every path as soon as it has read it. The two
byte streams of the socket hold a bounded number of bytes, and a write waits until
there is room. How many bytes a read or a write moves is left open.
-/

namespace Repkgs.Jigd

open Lib Jig

/-- A line on the wire. -/
def wireLine (text : Bytes) : Bytes := text ++ [chr '\n']

/-- The request of `Identities`. -/
def identitiesRequest (paths : List Bytes) : Bytes :=
  wireLine (ascii "IDS " ++ decimal paths.length) ++ paths.flatMap wireLine

/-- The buffer of `bufio.NewWriter`. -/
def writerSize : Nat := 4096

/-- `kBufSize` of the client. -/
def clientBufSize : Nat := 65536

/-- How much the two directions of the socket hold. -/
structure Capacities where
  up : Nat
  down : Nat

/-- Where `Identities` stands. -/
inductive Query
  | sending (unsent : Bytes) (count : Nat)
  /-- `RecvLine`: the line read so far, `pending_`, and the ids before it. -/
  | receiving (line pending : Bytes) (ids : List Bytes) (count : Nat)
  | done (ids : List Bytes)
  deriving DecidableEq

/-- Where the daemon's connection stands. -/
inductive Answering
  /-- `readLine` of `serve`. -/
  | request
  /-- `readLine` of `ids`, or its end. -/
  | paths (count : Nat)
  /-- `WriteString` with the rest of its text. -/
  | writing (text : Bytes) (count : Nat)
  /-- `Flush` inside `WriteString`: `rest` is not written yet. -/
  | flushing (rest text : Bytes) (count : Nat)
  /-- `Flush` after the request. -/
  | finishing (rest : Bytes)
  | closed
  deriving DecidableEq

structure Exchange where
  client : Query
  up : Bytes
  down : Bytes
  /-- What the daemon's reader holds. -/
  buffered : Bytes
  daemon : Answering
  /-- What the daemon's writer holds. -/
  written : Bytes
  deriving DecidableEq

/-- `send` and `receive` move bytes on the client's side, `read` and `write` on the
daemon's; the other two go on without the socket. -/
inductive Move
  | send (k : Nat)
  | receive (k : Nat)
  | client
  | read (k : Nat)
  | write (k : Nat)
  | daemon
  deriving DecidableEq

/-- The client goes on. A daemon that has hung up ends the query. -/
def Exchange.client? (e : Exchange) : Option Query :=
  match e.client with
  | .sending [] count => some (.receiving [] [] [] count)
  | .sending _ _ => if e.daemon = .closed then some (.done []) else none
  | .receiving _ _ ids 0 => some (.done ids)
  | .receiving line pending ids (count + 1) =>
      if chr '\n' ∈ pending then
        let found := cut (chr '\n') pending
        some (.receiving [] (found.2.drop 1) (ids ++ [line ++ found.1]) count)
      else if e.daemon = .closed ∧ e.down = [] then some (.done [])
      else none
  | .done _ => none

/-- What the daemon does with the next line. Other requests do not occur here. -/
def nextLine (of : Bytes → Bytes) (daemon : Answering) (line : Bytes) : Answering :=
  match daemon with
  | .request =>
      match parseRequest line with
      | .ids count => .paths count
      | _ => .closed
  | .paths (count + 1) => .writing (of line ++ [chr '\n']) count
  | other => other

/-- The daemon waits for a line. -/
def Answering.reads : Answering → Bool
  | .request => true
  | .paths (_ + 1) => true
  | _ => false

/-- The daemon goes on without waiting for the socket. -/
def Exchange.daemon? (of : Bytes → Bytes) (e : Exchange) : Option Exchange :=
  match e.daemon with
  | .paths 0 => some { e with daemon := .finishing e.written, written := [] }
  | .writing text count =>
      if text.length ≤ writerSize - e.written.length then
        some { e with daemon := .paths count, written := e.written ++ text }
      else
        let fits := writerSize - e.written.length
        some { e with daemon := .flushing (e.written ++ text.take fits) (text.drop fits) count,
                      written := [] }
  | .flushing [] text count => some { e with daemon := .writing text count }
  | .finishing [] => some { e with daemon := .request }
  | .request | .paths _ =>
      if chr '\n' ∈ e.buffered then
        let found := cut (chr '\n') e.buffered
        some { e with daemon := nextLine of e.daemon found.1, buffered := found.2.drop 1 }
      else if readerSize ≤ e.buffered.length then some { e with daemon := .closed }
      else none
  | _ => none

variable (caps : Capacities) (of : Bytes → Bytes)

/-- One move of the exchange. -/
def exchangeStep (e : Exchange) : Move → Option Exchange
  | .send k =>
      match e.client with
      | .sending unsent count =>
          if e.daemon ≠ .closed ∧ 0 < k ∧ k ≤ unsent.length ∧ e.up.length + k ≤ caps.up then
            some { e with client := .sending (unsent.drop k) count, up := e.up ++ unsent.take k }
          else none
      | _ => none
  | .receive k =>
      match e.client with
      | .receiving line pending ids (count + 1) =>
          if chr '\n' ∉ pending ∧ 0 < k ∧ k ≤ e.down.length ∧ k ≤ clientBufSize then
            some { e with client := .receiving (line ++ pending) (e.down.take k) ids (count + 1),
                          down := e.down.drop k }
          else none
      | _ => none
  | .client => e.client?.map fun next => { e with client := next }
  | .read k =>
      if e.daemon.reads ∧ chr '\n' ∉ e.buffered ∧ 0 < k ∧ k ≤ e.up.length ∧
          e.buffered.length + k ≤ readerSize then
        some { e with up := e.up.drop k, buffered := e.buffered ++ e.up.take k }
      else none
  | .write k =>
      match e.daemon with
      | .flushing rest text count =>
          if 0 < k ∧ k ≤ rest.length ∧ e.down.length + k ≤ caps.down then
            some { e with daemon := .flushing (rest.drop k) text count,
                          down := e.down ++ rest.take k }
          else none
      | .finishing rest =>
          if 0 < k ∧ k ≤ rest.length ∧ e.down.length + k ≤ caps.down then
            some { e with daemon := .finishing (rest.drop k), down := e.down ++ rest.take k }
          else none
      | _ => none
  | .daemon => e.daemon? of

/-- The query of a list of paths; an empty list is not sent. -/
def startQuery (paths : List Bytes) : Exchange :=
  ⟨if paths.isEmpty then .done [] else .sending (identitiesRequest paths) paths.length,
    [], [], [], .request, []⟩

/-- The client waits in `send`. -/
def Exchange.ClientBlocked (e : Exchange) : Prop :=
  ∃ unsent count, e.client = .sending unsent count ∧ unsent ≠ [] ∧ caps.up ≤ e.up.length ∧
    e.daemon ≠ .closed

/-- The daemon waits in a write. -/
def Exchange.DaemonBlocked (e : Exchange) : Prop :=
  caps.down ≤ e.down.length ∧
    ((∃ rest text count, e.daemon = .flushing rest text count ∧ rest ≠ []) ∨
      ∃ rest, e.daemon = .finishing rest ∧ rest ≠ [])

/-- All answers to some paths. -/
def answers (paths : List Bytes) : Bytes := paths.flatMap fun path => wireLine (of path)

/-- How much of that many bytes the writer passes on before it is flushed. -/
def passedOn (bytes : Nat) : Nat := (bytes - 1) / writerSize * writerSize

section Sending

variable {caps of} {paths : List Bytes}

/-- The part of the request the daemon has taken when it has answered `k` paths. -/
def consumedBy (paths : List Bytes) (k : Nat) : Bytes :=
  wireLine (ascii "IDS " ++ decimal paths.length) ++ (paths.take k).flatMap wireLine

/-- The daemon has taken `k` paths, and these answers are in the socket and its
writer so far. -/
structure Taken (of : Bytes → Bytes) (paths : List Bytes) (consumed : Bytes) (k count : Nat)
    (given : Bytes) : Prop where
  count : count + k = paths.length
  consumed : consumed = consumedBy paths k
  given : given = answers of (paths.take k)
  short : ∀ path ∈ paths.take k, path.length < readerSize

/-- What the daemon has done with the part of the request it has taken. -/
def Stage (of : Bytes → Bytes) (paths : List Bytes) (e : Exchange) (consumed : Bytes) : Prop :=
  match e.daemon with
  | .request => (consumed = [] ∧ e.down = [] ∧ e.written = []) ∨
      consumed = identitiesRequest paths
  | .paths count => (∃ k, Taken of paths consumed k count (e.down ++ e.written)) ∧
      writerSize ∣ e.down.length ∧ e.written.length ≤ writerSize
  | .writing text count => (∃ k, Taken of paths consumed k count (e.down ++ e.written ++ text)) ∧
      writerSize ∣ e.down.length ∧ e.written.length ≤ writerSize ∧ text ≠ []
  | .flushing rest text count => (∃ k, Taken of paths consumed k count (e.down ++ rest ++ text)) ∧
      writerSize ∣ e.down.length + rest.length ∧ e.written = [] ∧ text ≠ []
  | .finishing _ => consumed = identitiesRequest paths
  | .closed => True

/-- As long as the client sends, nothing that was written is lost or read. -/
def SendInv (of : Bytes → Bytes) (paths : List Bytes) (e : Exchange) : Prop :=
  e.buffered.length ≤ readerSize ∧ ∀ unsent count, e.client = .sending unsent count →
    ∃ consumed, consumed ++ (e.buffered ++ (e.up ++ unsent)) = identitiesRequest paths ∧
      Stage of paths e consumed

theorem identitiesRequest_eq (paths : List Bytes) (k : Nat) :
    identitiesRequest paths = consumedBy paths k ++ (paths.drop k).flatMap wireLine := by
  rw [consumedBy, List.append_assoc, ← List.flatMap_append, List.take_append_drop]
  rfl

theorem consumedBy_length (paths : List Bytes) : consumedBy paths paths.length =
    identitiesRequest paths := by
  rw [consumedBy, List.take_length]
  rfl

theorem newline_notMem_header (paths : List Bytes) :
    chr '\n' ∉ ascii "IDS " ++ decimal paths.length := by
  intro h
  rcases List.mem_append.mp h with h | h
  · exact absurd h (by decide)
  · exact absurd (isDigit_of_mem_decimal h) (by decide)

theorem cut_length_lt {text : Bytes} {stop : Byte} (h : stop ∈ text) :
    (cut stop text).1.length < text.length := by
  have happend := cut_append stop text
  have hne : (cut stop text).2 ≠ [] := by
    intro hnil
    rw [hnil, List.append_nil] at happend
    exact notMem_cut_fst stop text (by rw [happend]; exact h)
  have hlength := congrArg List.length happend
  rw [List.length_append] at hlength
  have := List.length_pos_iff.mpr hne
  omega

/-- A line in the reader is the next line of the request. -/
theorem line_of_buffered {buffered rest line after : Bytes} (hline : chr '\n' ∉ line)
    (hmem : chr '\n' ∈ buffered) (h : buffered ++ rest = wireLine line ++ after) :
    (cut (chr '\n') buffered).1 = line ∧ (cut (chr '\n') buffered).2.drop 1 ++ rest = after := by
  have happend := cut_append (chr '\n') buffered
  have hfirst := notMem_cut_fst (chr '\n') buffered
  rcases cut_snd (chr '\n') buffered with hnil | ⟨more, hmore⟩
  · rw [hnil, List.append_nil] at happend
    exact absurd (by rw [happend]; exact hmem) hfirst
  · rw [hmore] at happend ⊢
    rw [← happend, wireLine, List.append_assoc, List.append_assoc, List.cons_append,
      List.singleton_append] at h
    exact append_cons_inj hfirst hline h

variable {e e' : Exchange} {k : Nat}

theorem Stage.congr {consumed : Bytes} (h : Stage of paths e consumed)
    (hdaemon : e'.daemon = e.daemon) (hdown : e'.down = e.down)
    (hwritten : e'.written = e.written) :
    Stage of paths e' consumed := by
  unfold Stage at h ⊢
  rw [hdaemon, hdown, hwritten]
  exact h

/-- The client starts to send only once. -/
theorem client?_ne_sending {next : Query} (h : e.client? = some next)
    (unsent : Bytes) (count : Nat) : next ≠ .sending unsent count := by
  rintro rfl
  unfold Exchange.client? at h
  split at h
  · cases h
  · split at h <;> cases h
  · cases h
  · split at h
    · cases h
    · split at h <;> cases h
  · cases h

theorem SendInv.send (h : SendInv of paths e) (hstep : exchangeStep caps of e (.send k) = some e') :
    SendInv of paths e' := by
  simp only [exchangeStep] at hstep
  split at hstep
  · rename_i unsent count hclient
    split at hstep
    · cases hstep
      refine ⟨h.1, fun unsent' count' heq => ?_⟩
      cases heq
      obtain ⟨consumed, hall, hstage⟩ := h.2 unsent count hclient
      refine ⟨consumed, ?_, hstage.congr rfl rfl rfl⟩
      rw [List.append_assoc, List.take_append_drop]
      exact hall
    · cases hstep
  · cases hstep

theorem SendInv.read (h : SendInv of paths e) (hstep : exchangeStep caps of e (.read k) = some e') :
    SendInv of paths e' := by
  simp only [exchangeStep] at hstep
  split at hstep
  · rename_i hk
    cases hstep
    refine ⟨?_, fun unsent count hclient => ?_⟩
    · rw [List.length_append, List.length_take]
      omega
    · obtain ⟨consumed, hall, hstage⟩ := h.2 unsent count hclient
      refine ⟨consumed, ?_, hstage.congr rfl rfl rfl⟩
      rw [List.append_assoc, ← List.append_assoc (e.up.take k), List.take_append_drop]
      exact hall
  · cases hstep

theorem SendInv.write (h : SendInv of paths e)
    (hstep : exchangeStep caps of e (.write k) = some e') : SendInv of paths e' := by
  simp only [exchangeStep] at hstep
  split at hstep
  · rename_i rest text count hdaemon
    split at hstep
    · rename_i hk
      cases hstep
      refine ⟨h.1, fun unsent count' hclient => ?_⟩
      obtain ⟨consumed, hall, hstage⟩ := h.2 unsent count' hclient
      refine ⟨consumed, hall, ?_⟩
      unfold Stage at hstage ⊢
      rw [hdaemon] at hstage
      obtain ⟨htaken, hdvd, hwritten, htext⟩ := hstage
      refine ⟨?_, ?_, hwritten, htext⟩
      · rw [List.append_assoc e.down, List.take_append_drop]
        exact htaken
      · rw [List.length_append, Nat.add_assoc, ← List.length_append, List.take_append_drop]
        exact hdvd
    · cases hstep
  · rename_i rest hdaemon
    split at hstep
    · cases hstep
      refine ⟨h.1, fun unsent count hclient => ?_⟩
      obtain ⟨consumed, hall, hstage⟩ := h.2 unsent count hclient
      refine ⟨consumed, hall, ?_⟩
      unfold Stage at hstage ⊢
      rw [hdaemon] at hstage
      exact hstage
    · cases hstep
  · cases hstep

/-- The writer takes a text or passes on what fills its buffer. -/
theorem Stage.wrote {consumed text : Bytes} {count : Nat} (h : Stage of paths e consumed)
    (hdaemon : e.daemon = .writing text count) :
    Stage of paths (if text.length ≤ writerSize - e.written.length then
        { e with daemon := .paths count, written := e.written ++ text }
      else
        { e with daemon := .flushing (e.written ++ text.take (writerSize - e.written.length))
                    (text.drop (writerSize - e.written.length)) count,
                 written := [] }) consumed := by
  unfold Stage at h
  rw [hdaemon] at h
  obtain ⟨⟨k, htaken⟩, hdvd, hlen, htext⟩ := h
  split
  · rename_i hfits
    refine ⟨⟨k, ?_⟩, hdvd, ?_⟩
    · rw [← List.append_assoc]
      exact htaken
    · rw [List.length_append]
      omega
  · rename_i hfits
    refine ⟨⟨k, ?_⟩, ?_, rfl, ?_⟩
    · rw [List.append_assoc e.down, List.append_assoc e.written, List.take_append_drop,
        ← List.append_assoc]
      exact htaken
    · have hfull : (e.written ++ text.take (writerSize - e.written.length)).length =
          writerSize := by
        rw [List.length_append, List.length_take]
        omega
      rw [hfull]
      exact Nat.dvd_add_self_right.mpr hdvd
    · rw [ne_eq, List.drop_eq_nil_iff]
      exact hfits

theorem SendInv.start : SendInv of paths (startQuery paths) := by
  refine ⟨Nat.zero_le _, fun unsent count hclient => ⟨[], ?_, Or.inl ⟨rfl, rfl, rfl⟩⟩⟩
  rw [startQuery] at hclient
  simp only at hclient
  split at hclient
  · cases hclient
  · cases hclient
    rfl

/-- Both sides wait for room: the daemon has taken some paths whose answers do not
fit the socket, and the paths behind them do not fit it either. -/
theorem SendInv.blocked (h : SendInv of paths e) (hclient : e.ClientBlocked caps)
    (hdaemon : e.DaemonBlocked caps) :
    ∃ k ≤ paths.length, (∀ path ∈ paths.take k, path.length < readerSize) ∧
      caps.down < passedOn (answers of (paths.take k)).length ∧
      caps.up < ((paths.drop k).flatMap wireLine).length := by
  obtain ⟨unsent, count, hsending, hunsent, hup, -⟩ := hclient
  obtain ⟨consumed, hall, hstage⟩ := h.2 unsent count hsending
  obtain ⟨hdown, ⟨rest, text, left, hflush, hrest⟩ | ⟨rest, hfinish, -⟩⟩ := hdaemon
  · unfold Stage at hstage
    rw [hflush] at hstage
    obtain ⟨⟨k, htaken⟩, ⟨blocks, hblocks⟩, -, htext⟩ := hstage
    have hgiven := congrArg List.length htaken.given
    have hrestpos := List.length_pos_iff.mpr hrest
    have htextpos := List.length_pos_iff.mpr htext
    have hunsentpos := List.length_pos_iff.mpr hunsent
    rw [List.length_append, List.length_append] at hgiven
    refine ⟨k, by have := htaken.count; omega, htaken.short, ?_, ?_⟩
    · -- the blocks passed on do not hold the end of the last answer
      have hle : blocks ≤ ((answers of (paths.take k)).length - 1) / writerSize := by
        rw [Nat.le_div_iff_mul_le (by decide), Nat.mul_comm]
        omega
      have := Nat.mul_le_mul_right writerSize hle
      rw [passedOn]
      rw [Nat.mul_comm] at hblocks
      omega
    · rw [htaken.consumed, identitiesRequest_eq paths k] at hall
      have hlength := congrArg List.length (List.append_cancel_left hall)
      rw [List.length_append, List.length_append] at hlength
      omega
  · unfold Stage at hstage
    rw [hfinish] at hstage
    rw [hstage] at hall
    have hnil := List.append_eq_nil_iff.mp (List.self_eq_append_right.mp hall.symm)
    exact absurd (List.append_eq_nil_iff.mp hnil.2).2 hunsent

section Lines

variable (hcount : paths.length ≤ 2 ^ 20) (hpaths : ∀ path ∈ paths, chr '\n' ∉ path)
include hcount hpaths

/-- The daemon reads the lines the client wrote, one after the other. -/
theorem Stage.readLine {e : Exchange} {consumed unsent : Bytes} (h : Stage of paths e consumed)
    (hreads : e.daemon.reads = true) (hlen : e.buffered.length ≤ readerSize)
    (hall : consumed ++ (e.buffered ++ (e.up ++ unsent)) = identitiesRequest paths)
    (hmem : chr '\n' ∈ e.buffered) :
    ∃ consumed', consumed' ++ ((cut (chr '\n') e.buffered).2.drop 1 ++ (e.up ++ unsent)) =
        identitiesRequest paths ∧
      Stage of paths { e with
        daemon := nextLine of e.daemon (cut (chr '\n') e.buffered).1
        buffered := (cut (chr '\n') e.buffered).2.drop 1 } consumed' := by
  unfold Stage at h
  cases hdaemon : e.daemon with
  | request =>
      rw [hdaemon] at h
      rcases h with ⟨rfl, hdown, hwritten⟩ | hend
      · obtain ⟨hline, hrest⟩ := line_of_buffered (newline_notMem_header paths) hmem hall
        refine ⟨consumedBy paths 0, ?_, ?_⟩
        · rw [hrest, identitiesRequest_eq paths 0]
          rfl
        · unfold Stage
          rw [nextLine, hline, parseRequest_ids hcount]
          refine ⟨⟨0, rfl, rfl, ?_, nofun⟩, ?_, ?_⟩
          · simp [hdown, hwritten, answers]
          · simp [hdown]
          · simp [hwritten]
      · rw [hend] at hall
        have hnil := List.append_eq_nil_iff.mp (List.self_eq_append_right.mp hall.symm)
        rw [hnil.1] at hmem
        cases hmem
  | paths count =>
      rw [hdaemon] at h hreads
      obtain ⟨⟨k, htaken⟩, hdvd, hwritten⟩ := h
      cases count with
      | zero => cases hreads
      | succ count =>
          have hk : k < paths.length := by
            have := htaken.count
            omega
          rw [htaken.consumed, identitiesRequest_eq paths k, List.drop_eq_getElem_cons hk,
            List.flatMap_cons] at hall
          have hnl := hpaths paths[k] (List.getElem_mem hk)
          obtain ⟨hline, hrest⟩ := line_of_buffered hnl hmem (List.append_cancel_left hall)
          have htake : paths.take (k + 1) = paths.take k ++ [paths[k]] :=
            (List.take_append_getElem hk).symm
          refine ⟨consumedBy paths (k + 1), ?_, ?_⟩
          · rw [hrest, ← identitiesRequest_eq]
          · unfold Stage
            rw [nextLine, hline]
            refine ⟨⟨k + 1, ?_, rfl, ?_, ?_⟩, hdvd, hwritten, by simp⟩
            · have := htaken.count
              omega
            · rw [htaken.given, htake, answers, answers, List.flatMap_append,
                List.flatMap_singleton]
              rfl
            · rw [htake]
              intro path hpath
              rcases List.mem_append.mp hpath with hpath | hpath
              · exact htaken.short path hpath
              · rw [List.mem_singleton.mp hpath, ← hline]
                exact (cut_length_lt hmem).trans_le hlen
  | writing _ _ | flushing _ _ _ | finishing _ | closed => rw [hdaemon] at hreads; cases hreads

theorem SendInv.daemon {e e' : Exchange} (h : SendInv of paths e)
    (hstep : exchangeStep caps of e .daemon = some e') : SendInv of paths e' := by
  change e.daemon? of = some e' at hstep
  -- what becomes of the request does not change, unless a line is read
  have hkeep : ∀ {e' : Exchange}, e'.client = e.client → e'.buffered = e.buffered →
      e'.up = e.up → (∀ consumed, Stage of paths e consumed → Stage of paths e' consumed) →
      SendInv of paths e' := by
    intro e' hclient hbuffered hup hstage
    refine ⟨hbuffered ▸ h.1, fun unsent count heq => ?_⟩
    obtain ⟨consumed, hall, hold⟩ := h.2 unsent count (hclient ▸ heq)
    exact ⟨consumed, by rw [hbuffered, hup]; exact hall, hstage consumed hold⟩
  have hlines : e.daemon.reads = true →
      (if chr '\n' ∈ e.buffered then
        some { e with
          daemon := nextLine of e.daemon (cut (chr '\n') e.buffered).1
          buffered := (cut (chr '\n') e.buffered).2.drop 1 }
      else if readerSize ≤ e.buffered.length then some { e with daemon := .closed }
      else none) = some e' → SendInv of paths e' := by
    intro hreads hnext
    split at hnext
    · rename_i hmem
      cases hnext
      refine ⟨?_, fun unsent count hclient => ?_⟩
      · have hrest : ((cut (chr '\n') e.buffered).2.drop 1).Sublist e.buffered :=
          (List.drop_sublist 1 _).trans (List.dropWhile_sublist _)
        exact hrest.length_le.trans h.1
      · obtain ⟨consumed, hall, hstage⟩ := h.2 unsent count hclient
        exact hstage.readLine hcount hpaths hreads h.1 hall hmem
    · split at hnext
      · cases hnext
        exact hkeep rfl rfl rfl fun _ _ => trivial
      · cases hnext
  unfold Exchange.daemon? at hstep
  split at hstep
  · rename_i hdaemon
    cases hstep
    refine hkeep rfl rfl rfl fun consumed hstage => ?_
    unfold Stage at hstage
    rw [hdaemon] at hstage
    obtain ⟨⟨k, htaken⟩, -⟩ := hstage
    have hk : k = paths.length := by
      have := htaken.count
      omega
    change consumed = _
    rw [htaken.consumed, hk, consumedBy_length]
  · rename_i text count hdaemon
    split at hstep
    · rename_i hfits
      cases hstep
      refine hkeep rfl rfl rfl fun consumed hstage => ?_
      have hwrote := hstage.wrote hdaemon
      rwa [if_pos hfits] at hwrote
    · rename_i hfits
      cases hstep
      refine hkeep rfl rfl rfl fun consumed hstage => ?_
      have hwrote := hstage.wrote hdaemon
      rwa [if_neg hfits] at hwrote
  · rename_i text count hdaemon
    cases hstep
    refine hkeep rfl rfl rfl fun consumed hstage => ?_
    unfold Stage at hstage
    rw [hdaemon] at hstage
    obtain ⟨⟨k, htaken⟩, hdvd, hwritten, htext⟩ := hstage
    refine ⟨⟨k, ?_⟩, hdvd, ?_, htext⟩
    · rw [hwritten]
      exact htaken
    · rw [hwritten]
      exact Nat.zero_le _
  · rename_i hdaemon
    cases hstep
    refine hkeep rfl rfl rfl fun consumed hstage => ?_
    unfold Stage at hstage
    rw [hdaemon] at hstage
    exact Or.inr hstage
  · rename_i hdaemon
    exact hlines (by rw [hdaemon]; rfl) hstep
  · rename_i count hpos hdaemon
    refine hlines ?_ hstep
    cases count with
    | zero => exact absurd rfl hpos
    | succ count => rw [hdaemon]; rfl
  · cases hstep

theorem SendInv.step {e e' : Exchange} {move : Move} (h : SendInv of paths e)
    (hstep : exchangeStep caps of e move = some e') : SendInv of paths e' := by
  cases move with
  | send k => exact h.send hstep
  | read k => exact h.read hstep
  | write k => exact h.write hstep
  | daemon => exact h.daemon hcount hpaths hstep
  | receive k =>
      simp only [exchangeStep] at hstep
      split at hstep
      · split at hstep
        · cases hstep
          exact ⟨h.1, nofun⟩
        · cases hstep
      · cases hstep
  | client =>
      obtain ⟨next, hnext, rfl⟩ := Option.map_eq_some_iff.mp hstep
      refine ⟨h.1, fun unsent count heq => ?_⟩
      exact absurd heq (client?_ne_sending hnext unsent count)

theorem SendInv.reachable {e : Exchange}
    (h : Reachable (exchangeStep caps of) (startQuery paths) e) : SendInv of paths e :=
  h.invariant SendInv.start fun _ _ _ hinv hstep => hinv.step hcount hpaths hstep

end Lines

end Sending

/-- Nothing came to the daemon. -/
structure Untouched (e : Exchange) : Prop where
  up : e.up = []
  buffered : e.buffered = []
  daemon : e.daemon = .request

theorem Untouched.step {caps of} {e e' : Exchange} {move : Move} (hzero : caps.up = 0)
    (h : Untouched e) (hstep : exchangeStep caps of e move = some e') : Untouched e' := by
  cases move with
  | send k =>
      simp only [exchangeStep] at hstep
      split at hstep
      · split at hstep
        · omega
        · cases hstep
      · cases hstep
  | receive k =>
      simp only [exchangeStep] at hstep
      split at hstep
      · split at hstep
        · cases hstep
          exact ⟨h.up, h.buffered, h.daemon⟩
        · cases hstep
      · cases hstep
  | client =>
      obtain ⟨next, -, rfl⟩ := Option.map_eq_some_iff.mp hstep
      exact ⟨h.up, h.buffered, h.daemon⟩
  | read k =>
      simp only [exchangeStep, h.up, List.length_nil] at hstep
      split at hstep
      · omega
      · cases hstep
  | write k =>
      simp only [exchangeStep, h.daemon] at hstep
      cases hstep
  | daemon =>
      simp only [exchangeStep, Exchange.daemon?, h.daemon, h.buffered] at hstep
      cases hstep

theorem Untouched.reachable {caps of} {paths : List Bytes} {e : Exchange} (hzero : caps.up = 0)
    (h : Reachable (exchangeStep caps of) (startQuery paths) e) : Untouched e :=
  h.invariant ⟨rfl, rfl, rfl⟩ fun _ _ _ hinv hstep => hinv.step hzero hstep

end Repkgs.Jigd
