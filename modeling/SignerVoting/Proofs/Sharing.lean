import Mathlib.Data.Set.Function
import SignerVoting.Proofs.Reachable
import SignerVoting.Proofs.Recency

/-!
# Shared memories of signers

Several clients may find signers over one memory at the same time. A *call* for the signer of a
header takes up to three steps (`Call.step`), each of which nobody can break up: it looks the header
up, finds the signer that the seal names, and has the memory remember it. Between these steps other
calls may take theirs, in any order (`Event`), so that two calls may look for the signer of one
header at the same time, and what one has found may be forgotten again before another one looks it
up. A call whose steps follow on each other is `SealMemory.recover` (`Sharing.run_call`).

What is found and what is remembered is right all the same (`Sound`), as long as hashes tell headers
apart: the memory holds signers that seals name, whoever found them, and nothing of headers whose
seals name nobody. So a replay over a shared memory gives what one gives that looks at every seal
itself, also if other clients go on during it (`Sharing.run_transparent`).
-/

namespace SignerVoting

/-! ## Resolvers that remember -/

namespace Snapshot

variable {σ : Type} {n : Type → Type} [Monad n] {resolve : Resolver (StateT σ n)}
  {recover : Header → Except Failure Address} {p : σ → Prop} {s : Snapshot} {headers : List Header}
  {w : σ} {abort : Nat → Bool} {processed : Nat}

/-- Whether a resolver finds the signers of headers that a function gives, whatever it remembers, as
    long as that has a property, which it keeps. -/
def Answers (resolve : Resolver (StateT σ n)) (recover : Header → Except Failure Address)
    (p : σ → Prop) (headers : List Header) : Prop :=
  ∀ h ∈ headers, ∀ w, p w → ∃ w', (resolve h).run.run w = pure (recover h, w') ∧ p w'

theorem Answers.mono {more : List Header} (hresolve : Answers resolve recover p more)
    (hsub : headers ⊆ more) : Answers resolve recover p headers := fun h hh => hresolve h (hsub hh)

variable [LawfulMonad n]

theorem Answers.run_applyHeaders (hresolve : Answers resolve recover p headers) (hw : p w) :
    ∃ w', (applyHeaders resolve abort processed s headers).run.run w =
      pure ((applyHeaders recover abort processed s headers : ExceptT Failure Id Snapshot).run,
        w') ∧ p w' := by
  induction headers generalizing processed s w with
  | nil => exact ⟨w, rfl, hw⟩
  | cons h rest ih =>
    obtain ⟨hfirst, hrest⟩ := List.forall_mem_cons.1 hresolve
    rw [applyHeaders, applyHeaders]
    split
    · exact ⟨w, rfl, hw⟩
    · obtain ⟨w', hsigner, hw'⟩ := hfirst w hw
      have hheader : (applyHeader resolve s h).run.run w = pure (process recover s h, w') := by
        rw [applyHeader, ExceptT.run_bind, StateT.run_bind, hsigner, pure_bind, process]
        cases recover h <;> rfl
      rw [ExceptT.run_bind, StateT.run_bind, hheader, pure_bind, ExceptT.run_bind, run_applyHeader]
      cases process recover s h with
      | error e => exact ⟨w', rfl, hw'⟩
      | ok t => exact ih hrest hw'

/-- A replay gives the same with a resolver that remembers as with the function that it answers
    like. -/
theorem Answers.run_replay (hresolve : Answers resolve recover p headers) (hw : p w)
    (s : Snapshot) (abort : Nat → Bool) :
    ∃ w', (s.replay resolve abort headers).run.run w =
      pure (s.applyWithAbort recover abort headers, w') ∧ p w' := by
  by_cases hne : headers = []
  · rw [hne]
    exact ⟨w, rfl, hw⟩
  rw [applyWithAbort_of_ne_nil recover abort s hne, replay, List.getLast?_eq_some_getLast hne]
  dsimp only
  cases chainFailure? (Word.next? s.number) headers with
  | some failure => exact ⟨w, rfl, hw⟩
  | none =>
    have hrun : ∃ w', (applyHeaders resolve abort 0 s headers).run.run w = _ ∧ p w' :=
      hresolve.run_applyHeaders hw
    obtain ⟨w', hheaders, hw'⟩ := hrun
    refine ⟨w', ?_, hw'⟩
    dsimp only
    rw [ExceptT.run_bind, StateT.run_bind, hheaders, pure_bind]
    cases (applyHeaders recover abort 0 s headers : ExceptT Failure Id Snapshot).run <;> rfl

end Snapshot

/-- The signer that the seal names. -/
def Recovery.sealed (h : Header) : Except Failure Address := h.sealer.mapError .noSigner

namespace SealMemory

variable {memory : SealMemory} {capacity : Nat} {headers : List Header} {h : Header} {a : Address}

/-! ## What is remembered -/

/-- What a memory of that capacity may hold: signers that the seals of these headers name, by the
    hashes of the headers. -/
structure Remembers (capacity : Nat) (headers : List Header) (memory : SealMemory) : Prop where
  capacity_eq : memory.capacity = capacity
  size_le : memory.size ≤ capacity
  exists_header : ∀ {d : Digest} {a : Address}, (d, a) ∈ memory.entries →
    ∃ h ∈ headers, h.hash = d ∧ h.sealer = .ok a

namespace Remembers

theorem empty : Remembers capacity headers (.empty capacity) where
  capacity_eq := rfl
  size_le := Nat.zero_le capacity
  exists_header hmem := nomatch hmem

/-- What seals name can be remembered. -/
theorem insert (hm : Remembers capacity headers memory) (hh : h ∈ headers)
    (ha : h.sealer = .ok a) : Remembers capacity headers (memory.insert h.hash a) where
  capacity_eq := hm.capacity_eq
  size_le := hm.capacity_eq ▸ memory.size_insert_le h.hash a
  exists_header hmem := by
    rcases List.mem_cons.1 (List.mem_of_mem_take hmem) with heq | hmem
    · obtain ⟨rfl, rfl⟩ := Prod.mk.inj heq
      exact ⟨h, hh, rfl, ha⟩
    · exact hm.exists_header (List.mem_filter.1 hmem).1

/-- What is found of a header is what its seal names: no other header has its hash. -/
theorem access (hm : Remembers capacity headers memory)
    (hinj : Set.InjOn Header.hash {h | h ∈ headers}) (hh : h ∈ headers) :
    Remembers capacity headers (memory.access h.hash).2 ∧
      ∀ a, (memory.access h.hash).1 = some a → h.sealer = .ok a := by
  rw [Lru.access]
  split
  · rename_i a hfind
    obtain ⟨h', hh', hhash, hsealer⟩ := hm.exists_header (Lru.mem_entries_of_find? hfind)
    rw [hinj hh' hh hhash] at hsealer
    exact ⟨hm.insert hh hsealer, fun b hb => Option.some.inj hb ▸ hsealer⟩
  · exact ⟨hm, fun b hb => nomatch hb⟩

end Remembers

/-! ## Calls -/

/-- How far a call has come. -/
inductive Stage
  /-- The header is to be looked up. -/
  | asked
  /-- The memory does not know the header. -/
  | missed
  /-- The seal names a signer, which is to be remembered. -/
  | found (signer : Address)
  /-- The call is over. -/
  | answered (answer : Except SealError Address)

/-- A call for the signer of a header. -/
structure Call where
  header : Header
  stage : Stage

namespace Call

variable {c : Call}

/-- The next step of a call. -/
def step (c : Call) (memory : SealMemory) : Call × SealMemory :=
  match c.stage with
  | .asked =>
    match memory.access c.header.hash with
    | (some signer, memory) => ({ c with stage := .answered (.ok signer) }, memory)
    | (none, memory) => ({ c with stage := .missed }, memory)
  | .missed =>
    match c.header.sealer with
    | .ok signer => ({ c with stage := .found signer }, memory)
    | .error fault => ({ c with stage := .answered (.error fault) }, memory)
  | .found signer =>
    ({ c with stage := .answered (.ok signer) }, memory.insert c.header.hash signer)
  | .answered _ => (c, memory)

/-- The steps that a call may still take. -/
def stepsLeft (c : Call) : Nat :=
  match c.stage with
  | .asked => 3
  | .missed => 2
  | .found _ => 1
  | .answered _ => 0

/-- Whether what a call has found is what the seal says. -/
def Agrees (c : Call) : Prop :=
  match c.stage with
  | .asked => True
  | .missed => True
  | .found signer => c.header.sealer = .ok signer
  | .answered answer => answer = c.header.sealer

@[simp]
theorem header_step (c : Call) (memory : SealMemory) :
    (c.step memory).1.header = c.header := by
  fun_cases Call.step c memory <;> rfl

/-- A call comes to its end. -/
theorem stepsLeft_step_le (c : Call) (memory : SealMemory) :
    (c.step memory).1.stepsLeft ≤ c.stepsLeft - 1 := by
  fun_cases Call.step c memory <;> simp_all [stepsLeft]

theorem exists_answered (h : c.stepsLeft = 0) : ∃ answer, c.stage = .answered answer := by
  rw [stepsLeft] at h
  cases hstage : c.stage with
  | answered answer => exact ⟨answer, rfl⟩
  | asked | missed | found => simp [hstage] at h

/-- A step finds nothing but what the seal says, and leaves a memory of what seals say. -/
theorem Agrees.step (hc : c.Agrees) (hh : c.header ∈ headers)
    (hinj : Set.InjOn Header.hash {h | h ∈ headers}) (hm : Remembers capacity headers memory) :
    (c.step memory).1.Agrees ∧ Remembers capacity headers (c.step memory).2 := by
  rw [Agrees] at hc
  fun_cases Call.step c memory with
  | case1 hstage signer after haccess =>
    obtain ⟨hafter, hsigner⟩ := hm.access hinj hh
    rw [haccess] at hafter hsigner
    exact ⟨(hsigner signer rfl).symm, hafter⟩
  | case2 hstage after haccess =>
    have hafter := (hm.access hinj hh).1
    rw [haccess] at hafter
    exact ⟨trivial, hafter⟩
  | case3 hstage signer hsealer => exact ⟨hsealer, hm⟩
  | case4 hstage fault hsealer => exact ⟨hsealer.symm, hm⟩
  | case5 signer hstage =>
    rw [hstage] at hc
    exact ⟨hc.symm, hm.insert hh hc⟩
  | case6 answer hstage => exact ⟨hc, hm⟩

end Call

/-! ## Calls over one memory -/

/-- A memory that several clients use, with the calls that they have made, the first one first. -/
structure Sharing where
  memory : SealMemory
  calls : List Call

/-- What may happen next. -/
inductive Event
  /-- A client calls for the signer of a header. -/
  | call (h : Header)
  /-- The call in this position takes its next step, if it is not over. -/
  | step (position : Nat)
  deriving DecidableEq

/-- The headers that clients present. -/
def presented (events : List Event) : List Header :=
  events.filterMap fun
    | .call h => some h
    | .step _ => none

theorem presented_append (events more : List Event) :
    presented (events ++ more) = presented events ++ presented more := List.filterMap_append

namespace Sharing

variable {s : Sharing} {events : List Event} {i : Nat} {c : Call}

/-- A memory that nobody has used. -/
def start (capacity : Nat) : Sharing := ⟨.empty capacity, []⟩

/-- What an event does. -/
def perform (s : Sharing) : Event → Sharing
  | .call h => { s with calls := s.calls ++ [⟨h, .asked⟩] }
  | .step i =>
    match s.calls[i]? with
    | some c => ⟨(c.step s.memory).2, s.calls.set i (c.step s.memory).1⟩
    | none => s

/-- The events one after the other. -/
def run (s : Sharing) (events : List Event) : Sharing := events.foldl perform s

@[simp]
theorem run_nil (s : Sharing) : s.run [] = s := rfl

@[simp]
theorem run_cons (s : Sharing) (e : Event) (events : List Event) :
    s.run (e :: events) = (s.perform e).run events := rfl

theorem run_append (s : Sharing) (events more : List Event) :
    s.run (events ++ more) = (s.run events).run more := List.foldl_append

theorem perform_step_last (memory : SealMemory) (calls : List Call) (c : Call) :
    perform ⟨memory, calls ++ [c]⟩ (.step calls.length) =
      ⟨(c.step memory).2, calls ++ [(c.step memory).1]⟩ := by
  simp [perform]

theorem run_recover (h : Header) (memory : SealMemory) :
    (recover h).run.run memory =
      match memory.find? h.hash with
      | some signer => (.ok signer, memory.insert h.hash signer)
      | none =>
        match h.sealer with
        | .ok signer => (.ok signer, memory.insert h.hash signer)
        | .error fault => (.error fault, memory) := by
  change (match (memory.access h.hash).1 with
    | some signer => pure signer
    | none => do
      let signer ← ExceptT.mk (pure h.sealer)
      modify fun memory => memory.insert h.hash signer
      return signer : ExceptT SealError (StateM SealMemory) Address).run.run
        (memory.access h.hash).2 = _
  rw [Lru.access]
  cases memory.find? h.hash with
  | some signer => rfl
  | none => cases h.sealer <;> rfl

/-- A call whose steps follow on each other is `recover`. -/
theorem run_call (s : Sharing) (h : Header) :
    s.run [.call h, .step s.calls.length, .step s.calls.length, .step s.calls.length] =
      ⟨((recover h).run.run s.memory).2,
        s.calls ++ [⟨h, .answered ((recover h).run.run s.memory).1⟩]⟩ := by
  have hcall : s.perform (.call h) = ⟨s.memory, s.calls ++ [⟨h, .asked⟩]⟩ := rfl
  simp only [run_cons, run_nil, hcall, perform_step_last, run_recover]
  cases hfind : s.memory.find? h.hash with
  | some signer => simp [Call.step, Lru.access, hfind]
  | none => cases hsealer : h.sealer <;> simp [Call.step, Lru.access, hfind, hsealer]

/-! ## Calls in their order -/

/-- Calls are in the order in which they were made. -/
theorem map_header_run (s : Sharing) (events : List Event) :
    (s.run events).calls.map Call.header = s.calls.map Call.header ++ presented events := by
  induction events generalizing s with
  | nil => exact (List.append_nil _).symm
  | cons e events ih =>
    rw [run_cons, ih]
    cases e with
    | call h => simp [perform, presented]
    | step i =>
      have hpresented : presented (.step i :: events) = presented events := rfl
      rw [hpresented, perform]
      split
      · rename_i c hc
        obtain ⟨hi, rfl⟩ := List.getElem?_eq_some_iff.1 hc
        have hi' : i < (s.calls.map Call.header).length := by rwa [List.length_map]
        rw [List.map_set, Call.header_step, ← List.getElem_map Call.header (h := hi'),
          List.set_getElem_self]
      · rfl

/-- A call stays in its place, and each step of its own brings it closer to its end. -/
theorem exists_call_run (hc : s.calls[i]? = some c) (events : List Event) :
    ∃ c', (s.run events).calls[i]? = some c' ∧ c'.header = c.header ∧
      c'.stepsLeft ≤ c.stepsLeft - events.count (.step i) := by
  induction events generalizing s c with
  | nil => exact ⟨c, hc, rfl, Nat.le_refl _⟩
  | cons e events ih =>
    rw [run_cons]
    by_cases he : e = .step i
    · subst he
      have hi := (List.getElem?_eq_some_iff.1 hc).1
      have hstep : (s.perform (.step i)).calls[i]? = some (c.step s.memory).1 := by
        rw [perform, hc]
        exact List.getElem?_set_self hi
      obtain ⟨c', hc', hheader, hleft⟩ := ih hstep
      have hless := c.stepsLeft_step_le s.memory
      refine ⟨c', hc', hheader.trans (c.header_step s.memory), ?_⟩
      rw [List.count_cons_self]
      omega
    · have hother : (s.perform e).calls[i]? = some c := by
        cases e with
        | call h =>
          exact (List.getElem?_append_left (List.getElem?_eq_some_iff.1 hc).1).trans hc
        | step j =>
          have hj : j ≠ i := fun hj => he (congrArg Event.step hj)
          rw [perform]
          split
          · exact (List.getElem?_set_ne hj).trans hc
          · exact hc
      rw [List.count_cons_of_ne he]
      exact ih hother

/-! ## What holds at any time -/

/-- The memory holds what seals say, and so do the calls what they have found. -/
structure Sound (capacity : Nat) (headers : List Header) (s : Sharing) : Prop where
  remembers : Remembers capacity headers s.memory
  agrees : ∀ c ∈ s.calls, c.header ∈ headers ∧ c.Agrees

namespace Sound

theorem start (capacity : Nat) (headers : List Header) :
    Sound capacity headers (start capacity) where
  remembers := .empty
  agrees _ hc := nomatch hc

theorem perform (hs : Sound capacity headers s)
    (hinj : Set.InjOn Header.hash {h | h ∈ headers}) {e : Event}
    (he : presented [e] ⊆ headers) : Sound capacity headers (s.perform e) := by
  cases e with
  | call h =>
    refine ⟨hs.remembers, List.forall_mem_append.2 ⟨hs.agrees, List.forall_mem_singleton.2 ?_⟩⟩
    exact ⟨he List.mem_cons_self, trivial⟩
  | step i =>
    rw [Sharing.perform]
    split
    · rename_i c hc
      obtain ⟨hh, hagrees⟩ := hs.agrees c (List.mem_of_getElem? hc)
      obtain ⟨hstep, hremembers⟩ := hagrees.step hh hinj hs.remembers
      refine ⟨hremembers, fun d hd => ?_⟩
      rcases List.mem_or_eq_of_mem_set hd with hd | rfl
      · exact hs.agrees d hd
      · exact ⟨by rwa [Call.header_step], hstep⟩
    · exact hs

theorem run (hs : Sound capacity headers s) (hinj : Set.InjOn Header.hash {h | h ∈ headers})
    (hevents : presented events ⊆ headers) : Sound capacity headers (s.run events) := by
  induction events generalizing s with
  | nil => exact hs
  | cons e events ih =>
    rw [← List.singleton_append, presented_append, List.append_subset] at hevents
    exact ih (hs.perform hinj hevents.1) hevents.2

end Sound

/-- A call that has taken three steps is over, and has the answer that the seal gives. -/
theorem Sound.calls_run_of_three_le {earlier later : List Event} (hs : Sound capacity headers s)
    (hinj : Set.InjOn Header.hash {h | h ∈ headers})
    (hevents : presented (earlier ++ .call h :: later) ⊆ headers)
    (hcount : 3 ≤ later.count (.step (s.run earlier).calls.length)) :
    (s.run (earlier ++ .call h :: later)).calls[(s.run earlier).calls.length]? =
      some ⟨h, .answered h.sealer⟩ := by
  have hall := (hs.run hinj hevents).agrees
  rw [run_append, run_cons] at hall ⊢
  have hcalled : ((s.run earlier).perform (.call h)).calls[(s.run earlier).calls.length]? =
      some ⟨h, .asked⟩ := List.getElem?_concat_length
  obtain ⟨⟨header, stage⟩, hcall, hheader, hleft⟩ := exists_call_run hcalled later
  obtain rfl : h = header := hheader.symm
  have hthree : (⟨h, .asked⟩ : Call).stepsLeft = 3 := rfl
  obtain ⟨answer, rfl⟩ := Call.exists_answered (c := ⟨h, stage⟩) (by omega)
  obtain rfl : answer = h.sealer := (hall _ (List.mem_of_getElem? hcall)).2
  exact hcall

end Sharing

/-! ## Replays over a memory -/

/-- Where nobody else goes on, finding signers over a memory is looking at every seal. -/
theorem answers_resolve (capacity : Nat) (hinj : Set.InjOn Header.hash {h | h ∈ headers}) :
    Snapshot.Answers Recovery.resolve Recovery.sealed
      (fun r => ∃ memory, r = .fromSeal memory ∧ Remembers capacity headers memory) headers := by
  rintro h hh _ ⟨memory, rfl, hm⟩
  have hs : Sharing.Sound capacity headers ⟨memory, []⟩ := ⟨hm, fun _ hc => nomatch hc⟩
  have hevents : presented [.call h, .step 0, .step 0, .step 0] ⊆ headers :=
    List.cons_subset.2 ⟨hh, List.nil_subset _⟩
  have hcall : (⟨memory, []⟩ : Sharing).run [.call h, .step 0, .step 0, .step 0] = _ :=
    Sharing.run_call ⟨memory, []⟩ h
  have hafter := hs.run hinj hevents
  rw [hcall] at hafter
  have hanswer : ((recover h).run.run memory).1 = h.sealer := (hafter.agrees _ List.mem_cons_self).2
  refine ⟨.fromSeal ((recover h).run.run memory).2, ?_, _, rfl, hafter.remembers⟩
  rw [Recovery.sealed, ← hanswer]
  rfl

/-- A client of a shared memory, and what the others are going to do before each of the steps to
    come. -/
structure Client where
  sharing : Sharing
  others : List (List Event)

namespace Client

/-- A step of a call of the client, after the others have gone on. -/
def step (c : Call) : StateT Client Option Call := fun client =>
  let s := client.sharing.run (client.others.headD [])
  some ((c.step s.memory).1, ⟨{ s with memory := (c.step s.memory).2 }, client.others.tail⟩)

/-- As many steps of a call. -/
def steps : Nat → Call → StateT Client Option Call
  | 0, c => return c
  | n + 1, c => do steps n (← step c)

/-- A call of the client. If it were not over after three steps, it would have no answer. -/
def resolve : Resolver (StateT Client Option) := fun h => ExceptT.mk do
  let c ← steps 3 ⟨h, .asked⟩
  match c.stage with
  | .answered answer => return answer.mapError .noSigner
  | _ => failure

/-- The memory and the calls are right, and the others present no other headers. -/
structure Sound (capacity : Nat) (headers : List Header) (client : Client) : Prop where
  sharing : client.sharing.Sound capacity headers
  others : presented client.others.flatten ⊆ headers

variable {client : Client} {c : Call}

theorem Sound.step (hs : Sound capacity headers client)
    (hinj : Set.InjOn Header.hash {h | h ∈ headers}) (hh : c.header ∈ headers) (hc : c.Agrees) :
    ∃ c' after, (step c).run client = some (c', after) ∧ Sound capacity headers after ∧
      c'.header = c.header ∧ c'.Agrees ∧ c'.stepsLeft ≤ c.stepsLeft - 1 := by
  have hothers : presented (client.others.headD []) ⊆ headers ∧
      presented client.others.tail.flatten ⊆ headers := by
    have hall := hs.others
    cases hrest : client.others with
    | nil => exact ⟨List.nil_subset _, List.nil_subset _⟩
    | cons now later =>
      rw [hrest, List.flatten_cons, presented_append, List.append_subset] at hall
      exact hall
  have hgone := hs.sharing.run hinj hothers.1
  obtain ⟨hagrees, hremembers⟩ := hc.step hh hinj hgone.remembers
  exact ⟨_, _, rfl, ⟨⟨hremembers, hgone.agrees⟩, hothers.2⟩, c.header_step _, hagrees,
    c.stepsLeft_step_le _⟩

theorem Sound.steps (hs : Sound capacity headers client)
    (hinj : Set.InjOn Header.hash {h | h ∈ headers}) (hh : c.header ∈ headers) (hc : c.Agrees)
    (n : Nat) :
    ∃ c' after, (steps n c).run client = some (c', after) ∧ Sound capacity headers after ∧
      c'.header = c.header ∧ c'.Agrees ∧ c'.stepsLeft ≤ c.stepsLeft - n := by
  induction n generalizing client c with
  | zero => exact ⟨c, client, rfl, hs, rfl, hc, Nat.le_refl _⟩
  | succ n ih =>
    obtain ⟨c₁, after₁, hstep, hs₁, hheader₁, hc₁, hleft₁⟩ := hs.step hinj hh hc
    obtain ⟨c₂, after₂, hsteps, hs₂, hheader₂, hc₂, hleft₂⟩ := ih hs₁ (hheader₁ ▸ hh) hc₁
    refine ⟨c₂, after₂, ?_, hs₂, hheader₂.trans hheader₁, hc₂, by omega⟩
    rw [Client.steps, StateT.run_bind, hstep]
    exact hsteps

/-- Also where others go on, finding signers over a memory is looking at every seal. -/
theorem answers_resolve (capacity : Nat) (hinj : Set.InjOn Header.hash {h | h ∈ headers}) :
    Snapshot.Answers resolve Recovery.sealed (Sound capacity headers) headers := by
  intro h hh client hs
  obtain ⟨⟨header, stage⟩, after, hsteps, hafter, hheader, hc, hleft⟩ :=
    hs.steps hinj (c := ⟨h, .asked⟩) hh trivial 3
  obtain rfl : h = header := hheader.symm
  obtain ⟨answer, rfl⟩ := Call.exists_answered (c := ⟨h, stage⟩) (Nat.le_zero.1 hleft)
  obtain rfl : answer = h.sealer := hc
  refine ⟨after, ?_, hafter⟩
  rw [resolve, ExceptT.run_mk, StateT.run_bind, hsteps]
  rfl

end Client

/-! ## The law of shared memories -/

/-- Whatever clients do over one memory, in whatever order, as long as hashes tell the headers apart
    that they present: a call answers what the seal of its header says, and is over after three
    steps. The memory never holds more than it has room for, and nothing but signers that the seals
    of these headers name. A replay over the memory gives what one gives that looks at every seal
    itself, also if other clients go on between its steps. -/
theorem Sharing.run_transparent (capacity : Nat) (events : List Event)
    (hinj : Set.InjOn Header.hash {h | h ∈ presented events}) :
    let s := (start capacity).run events
    s.calls.map Call.header = presented events ∧
    (∀ h answer, ⟨h, .answered answer⟩ ∈ s.calls → answer = h.sealer) ∧
    (∀ earlier h later, events = earlier ++ .call h :: later →
      3 ≤ later.count (.step (presented earlier).length) →
        s.calls[(presented earlier).length]? = some ⟨h, .answered h.sealer⟩) ∧
    (∀ d a, (d, a) ∈ s.memory.entries →
      ∃ h ∈ presented events, h.hash = d ∧ h.sealer = .ok a) ∧
    s.memory.size ≤ capacity ∧
    ∀ (t : Snapshot) (headers : List Header),
      (Set.InjOn Header.hash {h | h ∈ presented events ++ headers} →
        ((t.replay Recovery.resolve (fun _ => false) headers).run.run (.fromSeal s.memory)).1 =
          t.apply Recovery.sealed headers) ∧
      ∀ others, Set.InjOn Header.hash
          {h | h ∈ presented events ++ (presented others.flatten ++ headers)} →
        ∃ after, (t.replay Client.resolve (fun _ => false) headers).run.run ⟨s, others⟩ =
          some (t.apply Recovery.sealed headers, after) := by
  have hs := (Sound.start capacity (presented events)).run hinj (List.Subset.refl _)
  refine ⟨map_header_run (start capacity) events, fun h answer hcall => (hs.agrees _ hcall).2, ?_,
    fun d a => hs.remembers.exists_header, hs.remembers.size_le,
    fun t headers => ⟨fun hinj' => ?_, fun others hinj' => ?_⟩⟩
  · rintro earlier h later rfl hcount
    have hlength : ((start capacity).run earlier).calls.length = (presented earlier).length := by
      rw [← List.length_map (f := Call.header), map_header_run]
      rfl
    rw [← hlength] at hcount ⊢
    exact (Sound.start capacity _).calls_run_of_three_le hinj (List.Subset.refl _) hcount
  · have hs' := (Sound.start capacity _).run hinj' (List.subset_append_left (presented events) _)
    have hanswers := (answers_resolve capacity hinj').mono (List.subset_append_right _ headers)
    obtain ⟨after, hreplay, -⟩ := hanswers.run_replay ⟨_, rfl, hs'.remembers⟩ t fun _ => false
    exact congrArg Prod.fst hreplay
  · have hs' := (Sound.start capacity _).run hinj' (List.subset_append_left (presented events) _)
    have hothers : presented others.flatten ⊆
        presented events ++ (presented others.flatten ++ headers) :=
      List.subset_append_of_subset_right _ (List.subset_append_left _ _)
    have hheaders : headers ⊆ presented events ++ (presented others.flatten ++ headers) :=
      List.subset_append_of_subset_right _ (List.subset_append_right _ _)
    have hanswers := (Client.answers_resolve capacity hinj').mono hheaders
    have hclient : Client.Sound capacity _ ⟨(start capacity).run events, others⟩ := ⟨hs', hothers⟩
    obtain ⟨after, hreplay, -⟩ := hanswers.run_replay hclient t fun _ => false
    exact ⟨after, hreplay⟩

/-- Two calls for a header that is sealed look it up before either of them has found its signer, and
    a call for the same header without its seal goes on between their steps. -/
theorem Sharing.run_transparent_raced :
    let key : SealKey := ⟨.replicate 32 1⟩
    let bare : Header := .declaring (.ofLow64 1) 1 .authorize (.ofLow64 2)
    let sealed := key.sealHeader bare
    let events : List Event := [.call sealed, .call bare, .call sealed, .step 0, .step 2, .step 1,
      .step 0, .step 2, .step 1, .step 0, .step 1, .step 2]
    let s := (start 1).run events
    Set.InjOn Header.hash {h | h ∈ presented events} ∧
    s.calls[0]? = some ⟨sealed, .answered (.ok key.address)⟩ ∧
    s.calls[1]? = some ⟨bare, .answered (.error (.wrongLength 96 0))⟩ ∧
    s.calls[2]? = some ⟨sealed, .answered (.ok key.address)⟩ ∧
    s.memory.size ≤ 1 := by
  intro key bare sealed events s
  have hsealed : sealed.sealer = .ok key.address ∧ sealed.hash ≠ bare.hash := by
    decide +kernel
  have hbare : bare.sealer = .error (.wrongLength 96 0) := rfl
  have hpresented : ∀ h ∈ presented events, h = sealed ∨ h = bare := by
    change ∀ h ∈ [sealed, bare, sealed], h = sealed ∨ h = bare
    simp
  have hinj : Set.InjOn Header.hash {h | h ∈ presented events} := by
    intro h hh h' hh' heq
    rcases hpresented h hh with rfl | rfl <;> rcases hpresented h' hh' with rfl | rfl
    · rfl
    · exact absurd heq hsealed.2
    · exact absurd heq.symm hsealed.2
    · rfl
  obtain ⟨-, -, hover, -, hsize, -⟩ := Sharing.run_transparent 1 events hinj
  rw [← hsealed.1, ← hbare]
  exact ⟨hinj, hover [] sealed _ rfl (by decide), hover [.call sealed] bare _ rfl (by decide),
    hover [.call sealed, .call bare] sealed _ rfl (by decide), hsize⟩

end SealMemory

end SignerVoting
