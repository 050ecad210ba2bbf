import Scriptlet.Proofs.Footprint.Sessions
import Scriptlet.Proofs.StackLimits

/-! # Sinks that fill up

A sink that takes no more than so many bytes cuts off what exceeds them, and does nothing else. Up
to there a script runs as it would with any other sink; at the print, or the listing, that is too
long it fails, and nothing is done after that.
-/

namespace Scriptlet

/-! ## Bytes -/

theorem extract_of_size_le {bytes : ByteArray} {limit : Nat} (hsize : bytes.size ≤ limit) :
    bytes.extract 0 limit = bytes := by
  rw [← Nat.max_eq_left hsize, ByteArray.extract_zero_max_size]

theorem extract_append_of_le {bytes : ByteArray} {limit : Nat} (hsize : limit ≤ bytes.size)
    (more : ByteArray) : (bytes ++ more).extract 0 limit = bytes.extract 0 limit := by
  rw [ByteArray.extract_append, Nat.sub_eq_zero_of_le hsize, Nat.zero_sub, ByteArray.extract_same,
    ByteArray.append_empty]

/-- Bytes that go beyond the limit are written up to it. -/
theorem Sink.write_of_lt {written bytes : ByteArray} {limit : Nat} (hroom : written.size ≤ limit)
    (hover : limit < (written ++ bytes).size) :
    write ⟨written, some limit⟩ bytes =
      (.error full, ⟨(written ++ bytes).extract 0 limit, some limit⟩) := by
  rw [ByteArray.size_append] at hover
  have hlong : ¬bytes.size ≤ limit - written.size := by omega
  simp only [write, if_neg hlong]
  rw [ByteArray.extract_append, extract_of_size_le hroom, Nat.zero_sub]

namespace Machine

/-- The machine with as much of its output as a limit allows. -/
def truncate (m : Machine) (limit : Nat) : Machine :=
  m.withSink ⟨m.sink.written.extract 0 limit, some limit⟩

variable {m m' : Machine} {limit : Nat}

/-! ## Steps -/

theorem eq_of_write {text : String} (hwrite : write text m = .ok () m') :
    m' = m.withSink ⟨m.sink.written ++ text.toUTF8, m.sink.limit⟩ := by
  obtain ⟨stack, globals, sink⟩ := m
  simp only [write] at hwrite
  rcases write_cases sink text.toUTF8 with hsink | ⟨_, reason, rest, hsink⟩
  · rw [hsink] at hwrite
    exact (EStateM.Result.ok.inj hwrite).2.symm
  · rw [hsink] at hwrite
    cases hwrite

/-- What cannot be written in full is written in part. -/
theorem write_of_lt {text : String} (hwrite : write text m = .ok () m')
    (hroom : m.sink.written.size ≤ limit) (hover : limit < m'.sink.written.size) :
    write text (m.relimit (some limit)) = .error (.output Sink.full) (m'.truncate limit) := by
  obtain rfl := eq_of_write hwrite
  simp only [write, relimit, withSink, Sink.write_of_lt hroom hover]
  rfl

/-- A print that succeeds takes a value off the stack and writes its line. -/
theorem exists_of_step_print {pool : Pool} (hstep : step pool .print m = .ok () m') :
    ∃ value popped, pop m = .ok value popped ∧ write (value.text ++ "\n") popped = .ok () m' := by
  simp only [step, Bind.bind, EStateM.bind] at hstep
  cases hpop : pop m with
  | error e popped =>
      rw [hpop] at hstep
      cases hstep
  | ok value popped =>
      rw [hpop] at hstep
      exact ⟨value, popped, rfl, hstep⟩

section Unlimited

variable {pool : Pool} {instr : Instr} (hlimit : m.sink.limit = none)

include hlimit

theorem limit_of_step (hstep : step pool instr m = .ok () m') : m'.sink.limit = none := by
  by_cases hprint : instr = .print
  · subst hprint
    obtain ⟨value, popped, hpop, hwrite⟩ := exists_of_step_print hstep
    rw [eq_of_write hwrite, ← hlimit, ← Blind.pop.sink_eq hpop]
    rfl
  · rw [(blind_step pool hprint).sink_eq hstep, hlimit]

/-- Without a limit, an instruction that fails does so with any sink. -/
theorem step_error_relimit {e : RuntimeError} (hstep : step pool instr m = .error e m')
    (other : Option Nat) :
    step pool instr (m.relimit other) = .error e (m'.relimit other) ∧ m'.sink = m.sink := by
  by_cases hprint : instr = .print
  · subst hprint
    simp only [step, Bind.bind, EStateM.bind] at hstep ⊢
    rw [relimit, Blind.pop]
    cases hpop : pop m with
    | error e₁ m₁ =>
        rw [hpop] at hstep
        obtain ⟨rfl, rfl⟩ := EStateM.Result.error.inj hstep
        have hsame := (OnStack.pop.failsEarly m _ _ hpop).sink
        exact ⟨by rw [relimit, hsame], hsame⟩
    | ok value m₁ =>
        -- A sink without a limit takes every line.
        rw [hpop] at hstep
        have hsink := (Blind.pop.sink_eq hpop).symm ▸ hlimit
        obtain ⟨stack, globals, ⟨written, _⟩⟩ := m₁
        obtain rfl := hsink
        cases hstep
  · have hsame := (failsEarly_step pool hprint m e m' hstep).sink
    have hblind := blind_step pool hprint m ⟨m.sink.written, other⟩
    rw [hstep] at hblind
    exact ⟨by rw [relimit, relimit, hblind, hsame], hsame⟩

end Unlimited

/-- A step that goes beyond the limit is a print, and with the limit it fails. -/
theorem step_of_lt {pool : Pool} {instr : Instr} (hstep : step pool instr m = .ok () m')
    (hroom : m.sink.written.size ≤ limit) (hover : limit < m'.sink.written.size) :
    instr = .print ∧ m'.globals = m.globals ∧
      step pool instr (m.relimit (some limit)) =
        .error (.output Sink.full) (m'.truncate limit) := by
  by_cases hprint : instr = .print
  · subst hprint
    obtain ⟨value, popped, hpop, hwrite⟩ := exists_of_step_print hstep
    have hsame := (pop_eq_ok hpop).2
    have hglobals : m'.globals = m.globals := by
      rw [eq_of_write hwrite, ← hsame.globals]
      rfl
    refine ⟨rfl, hglobals, ?_⟩
    simp only [step, Bind.bind, EStateM.bind]
    rw [relimit, Blind.pop, hpop, ← hsame.sink]
    exact write_of_lt hwrite (hsame.sink ▸ hroom) hover
  · rw [(blind_step pool hprint).sink_eq hstep] at hover
    exact absurd hroom (Nat.not_le_of_lt hover)

/-! ## Runs -/

theorem WritesOn.size_le (hwrites : WritesOn m m') :
    m.sink.written.size ≤ m'.sink.written.size := by
  rcases hwrites with ⟨more, hmore⟩
  rw [hmore, ByteArray.size_append]
  exact Nat.le_add_right _ _

/-- What lies within a limit stays the same once it has been written. -/
theorem WritesOn.extract_eq (hwrites : WritesOn m m') (hover : limit < m.sink.written.size) :
    m'.sink.written.extract 0 limit = m.sink.written.extract 0 limit := by
  rcases hwrites with ⟨more, hmore⟩
  rw [hmore, extract_append_of_le (Nat.le_of_lt hover)]

/-- A run of the chunk from `m` gets to a print that goes beyond the limit. -/
structure Exceeds (chunk : Chunk) (m : Machine) (limit offset : Nat) (before after : Machine) :
    Prop where
  visits : Visits chunk m offset before
  print : chunk.code[offset]? = some .print
  step : step chunk.pool .print before = .ok () after
  within : before.sink.written.size ≤ limit
  beyond : limit < after.sink.written.size

section Runs

variable {chunk : Chunk} {before : Machine} {offset : Nat}

theorem Visits.sinkLimit_eq (hlimit : m.sink.limit = none)
    (hbefore : Visits chunk m offset before) : before.sink.limit = none := by
  induction hbefore with
  | start => exact hlimit
  | step _ _ _ hstep ih => exact limit_of_step ih hstep

theorem Visits.writesOn (hbefore : Visits chunk m offset before) : WritesOn m before := by
  induction hbefore with
  | start => exact .of_eq rfl
  | step _ _ _ hstep ih => exact ih.trans (writesOn_of_step hstep)

theorem Visits.relimit {other : Option Nat} (hbefore : Visits chunk m offset before)
    (hroom : before.HasRoom other) :
    Visits chunk (m.relimit other) offset (before.relimit other) := by
  induction hbefore with
  | start => exact .start
  | step _ hinstr hhalt hstep ih =>
      obtain ⟨hstep', hle⟩ := step_relimit hstep hroom
      exact (ih (hroom.mono hle)).step hinstr hhalt hstep'

/-- A run that has written too much went beyond the limit at some print. -/
theorem Visits.exists_exceeds (hbefore : Visits chunk m offset before)
    (hroom : m.sink.written.size ≤ limit) (hover : limit < before.sink.written.size) :
    ∃ place first after, Exceeds chunk m limit place first after ∧ WritesOn after before := by
  induction hbefore with
  | start => exact absurd hroom (Nat.not_le_of_lt hover)
  | @step offset instr before after hbefore hinstr hhalt hstep ih =>
      by_cases hwithin : before.sink.written.size ≤ limit
      · obtain ⟨rfl, _⟩ := step_of_lt hstep hwithin hover
        exact ⟨offset, before, after, ⟨hbefore, hinstr, hstep, hwithin, hover⟩, .of_eq rfl⟩
      · obtain ⟨place, first, middle, hexceeds, hwrites⟩ := ih (Nat.lt_of_not_le hwithin)
        exact ⟨place, first, middle, hexceeds, hwrites.trans (writesOn_of_step hstep)⟩

/-- A run that gets to an instruction that fails ends there. -/
theorem Visits.run_eq_error {instr : Instr} {e : RuntimeError} {after : Machine}
    (hbefore : Visits chunk m offset before) (hinstr : chunk.code[offset]? = some instr)
    (hstep : Machine.step chunk.pool instr before = .error e after) :
    m.run chunk = (.error ⟨e, chunk.posAt offset⟩, after) := by
  have hhalt : instr ≠ .halt := by
    rintro rfl
    cases hstep
  rw [hbefore.run_eq_execute, drop_of_getElem? hinstr, execute_cons chunk offset hhalt, hstep]

/-- The state in which a run without a limit ends has written what the run gets to. -/
theorem exists_visits_of_run (hlimit : m.sink.limit = none) {result : Except Fault Unit}
    {final : Machine} (hrun : m.run chunk = (result, final)) :
    ∃ offset before, Visits chunk m offset before ∧ final.sink = before.sink ∧
      ∀ other, before.HasRoom other →
        (m.relimit other).run chunk = (result, final.relimit other) := by
  have hends := run_ends chunk m
  rw [hrun] at hends
  cases hends with
  | @halt offset _ hbefore hinstr =>
      exact ⟨offset, final, hbefore, rfl, fun other hroom =>
        (hbefore.relimit hroom).run_eq_ok hinstr⟩
  | @failure offset instr before _ e hbefore hinstr hstep =>
      have hnone := hbefore.sinkLimit_eq hlimit
      have hsame := (step_error_relimit hnone hstep none).2
      exact ⟨offset, before, hbefore, hsame, fun other hroom =>
        (hbefore.relimit hroom).run_eq_error hinstr (step_error_relimit hnone hstep other).1⟩
  | @outOfCode offset _ hbefore hend =>
      refine ⟨offset, final, hbefore, rfl, fun other hroom => ?_⟩
      have hdrop : chunk.code.toList.drop offset = [] := by
        rw [List.drop_eq_nil_iff, Array.length_toList]
        exact Array.getElem?_eq_none_iff.mp hend
      rw [(hbefore.relimit hroom).run_eq_execute, hdrop, execute]

/-- A run with a limit is the one without it as long as the output fits, and otherwise fails at the
print that goes beyond the limit. -/
theorem run_truncated (hlimit : m.sink.limit = none) (hroom : m.sink.written.size ≤ limit)
    {result : Except Fault Unit} {final : Machine} (hrun : m.run chunk = (result, final)) :
    (final.sink.written.size ≤ limit →
      (m.relimit (some limit)).run chunk = (result, final.relimit (some limit))) ∧
    (limit < final.sink.written.size →
      ∃ offset before after, Exceeds chunk m limit offset before after ∧ WritesOn after final ∧
        after.globals = before.globals ∧
        (m.relimit (some limit)).run chunk =
          (.error ⟨.output Sink.full, chunk.posAt offset⟩, after.truncate limit)) := by
  obtain ⟨offset, last, hlast, hsink, hother⟩ := exists_visits_of_run hlimit hrun
  constructor
  · intro hfits
    apply hother
    rintro size ⟨⟩
    rw [← hsink]
    exact hfits
  · intro hover
    rw [hsink] at hover
    obtain ⟨place, before, after, hexceeds, hwrites⟩ := hlast.exists_exceeds hroom hover
    obtain ⟨_, hglobals, hstep⟩ := step_of_lt hexceeds.step hexceeds.within hexceeds.beyond
    have hvisits : Visits chunk (m.relimit (some limit)) place (before.relimit (some limit)) := by
      apply hexceeds.visits.relimit
      rintro size ⟨⟩
      exact hexceeds.within
    exact ⟨place, before, after, hexceeds, hwrites.trans (.of_eq (congrArg Sink.written hsink)),
      hglobals, hvisits.run_eq_error hexceeds.print hstep⟩

theorem writesOn_of_run (hlimit : m.sink.limit = none) {result : Except Fault Unit}
    {final : Machine} (hrun : m.run chunk = (result, final)) : WritesOn m final := by
  obtain ⟨offset, last, hlast, hsink, _⟩ := exists_visits_of_run hlimit hrun
  exact hlast.writesOn.trans (.of_eq (congrArg Sink.written hsink))

end Runs

end Machine

/-! ## Sessions -/

namespace Session

/-- The session with another limit for its output. -/
def relimit (session : Session) (limit : Option Nat) : Session :=
  { session with machine := session.machine.relimit limit }

section Announce

variable {session : Session} {limit : Nat} {chunk : Chunk}

/-- Without a limit, the listing can be written. -/
theorem write_listing (hlisting : session.config.listing = true) :
    Machine.write (chunk.listing "script") (session.machine.relimit none) =
      .ok () ((session.relimit none).announced chunk) := by
  simp only [Machine.write, Machine.relimit, Machine.withSink, Sink.write, announced, preamble,
    relimit, hlisting, if_true]

theorem announced_of_no_listing (hlisting : session.config.listing = false) :
    (session.relimit none).announced chunk = session.machine.relimit none := by
  simp only [announced, preamble, relimit, hlisting, Bool.false_eq_true, if_false,
    ByteArray.append_empty]

/-- A listing that fits is written. -/
theorem announce_eq (hroom : session.config.listing = true →
      (session.announced chunk).HasRoom session.machine.sink.limit) :
    session.announce chunk = (.ok (), { session with machine := session.announced chunk }) := by
  rw [announce]
  split
  next hlisting =>
    have hbytes : preamble session.config chunk = (chunk.listing "script").toUTF8 :=
      if_pos hlisting
    have hwrite : session.machine.sink.write (chunk.listing "script").toUTF8 =
        (.ok (), (session.announced chunk).sink) := by
      refine Sink.write_eq_ok_iff.mpr ⟨fun limit hlimit => ?_, by rw [announced, hbytes]⟩
      have hall := hroom hlisting limit hlimit
      simp only [announced, hbytes, ByteArray.size_append] at hall
      omega
    simp only [Machine.write, hwrite]
    rfl
  next hlisting => simp [announced, preamble, hlisting]

theorem announce_of_le
    (hsize : ((session.relimit none).announced chunk).sink.written.size ≤ limit) :
    (session.relimit (some limit)).announce chunk =
      (.ok (), { session with
        machine := ((session.relimit none).announced chunk).relimit (some limit) }) := by
  apply announce_eq
  rintro _ size ⟨⟩
  exact hsize

/-- A listing that is too long is cut off. -/
theorem announce_of_lt (hroom : session.machine.sink.written.size ≤ limit)
    (hover : limit < ((session.relimit none).announced chunk).sink.written.size) :
    (session.relimit (some limit)).announce chunk =
      (.error ⟨.output Sink.full, .unknown⟩, { session with
        machine := ((session.relimit none).announced chunk).truncate limit }) := by
  cases hlisting : session.config.listing with
  | true =>
      have hwrite : Machine.write (chunk.listing "script") (session.machine.relimit (some limit)) =
          .error (.output Sink.full) (((session.relimit none).announced chunk).truncate limit) :=
        Machine.write_of_lt (m := session.machine.relimit none) (write_listing hlisting) hroom hover
      simp only [announce, relimit, hlisting, if_true, hwrite]
  | false =>
      rw [announced_of_no_listing hlisting] at hover
      exact absurd hroom (Nat.not_le_of_lt hover)

end Announce

/-- Where the output of a chunk goes beyond a limit: in the listing, before anything is run, or at a
print. The machine `cut` is that of the session without a limit, as it is when it has written the
listing or the line of the print. -/
inductive Overruns (session : Session) (chunk : Chunk) (limit : Nat) : Machine → Fault → Prop
  | listing (hover : limit < ((session.relimit none).announced chunk).sink.written.size) :
      Overruns session chunk limit ((session.relimit none).announced chunk)
        ⟨.output Sink.full, .unknown⟩
  | print {offset : Nat} {before cut : Machine}
      (hlisting : ((session.relimit none).announced chunk).sink.written.size ≤ limit)
      (hexceeds : Machine.Exceeds chunk ((session.relimit none).announced chunk) limit offset before
        cut)
      (hglobals : cut.globals = before.globals) :
      Overruns session chunk limit cut ⟨.output Sink.full, chunk.posAt offset⟩

theorem Overruns.lt {session : Session} {chunk : Chunk} {limit : Nat} {cut : Machine}
    {fault : Fault} (hoverruns : session.Overruns chunk limit cut fault) :
    limit < cut.sink.written.size := by
  cases hoverruns with
  | listing hover => exact hover
  | print _ hexceeds _ => exact hexceeds.beyond

section Attempt

variable {session : Session} {source : String} {limit : Nat}

/-- With a listing that fits, or without one, the chunk is run. -/
theorem attempt_relimit {chunk : Chunk}
    (hcompile : compile session.config.recovery source = .ok chunk)
    (hlisting : ((session.relimit none).announced chunk).sink.written.size ≤ limit)
    {result : Except Fault Unit} {final : Machine}
    (hrun : (((session.relimit none).announced chunk).relimit (some limit)).run chunk =
      (result, final)) :
    (session.relimit (some limit)).attempt source =
      (result.mapError .faulted, { session with machine := final }) := by
  have hlimited : compile (session.relimit (some limit)).config.recovery source = .ok chunk :=
    hcompile
  simp only [attempt, hlimited, announce_of_le hlisting, run, hrun]

/-- A script whose output fits does the same with the limit. -/
theorem attempt_of_le
    (hfits : ((session.relimit none).attempt source).2.machine.sink.written.size ≤ limit) :
    (session.relimit (some limit)).attempt source =
      (((session.relimit none).attempt source).1,
        ((session.relimit none).attempt source).2.relimit (some limit)) := by
  cases hcompile : compile session.config.recovery source with
  | error rejection =>
      simp only [attempt, relimit, hcompile]
      rfl
  | ok chunk =>
      have hfree : (session.relimit none).attempt source = _ := attempt_eq_run hcompile (.inl rfl)
      rcases hrun : ((session.relimit none).announced chunk).run chunk with ⟨result, final⟩
      rw [hrun] at hfree
      rw [hfree] at hfits ⊢
      have hlisting := Nat.le_trans (Machine.writesOn_of_run rfl hrun).size_le hfits
      exact attempt_relimit hcompile hlisting ((Machine.run_truncated rfl hlisting hrun).1 hfits)

/-- A script whose output does not fit fails where the output goes beyond the limit. -/
theorem attempt_of_lt (hroom : session.machine.sink.written.size ≤ limit)
    (hover : limit < ((session.relimit none).attempt source).2.machine.sink.written.size) :
    ∃ chunk cut fault, compile session.config.recovery source = .ok chunk ∧
      session.Overruns chunk limit cut fault ∧
      cut.WritesOn ((session.relimit none).attempt source).2.machine ∧
      (session.relimit (some limit)).attempt source =
        (.error (.faulted fault), { session with machine := cut.truncate limit }) := by
  cases hcompile : compile session.config.recovery source with
  | error rejection =>
      have hwritten : ((session.relimit none).attempt source).2.machine.sink.written =
          session.machine.sink.written := by
        simp only [attempt, relimit, hcompile]
        rfl
      rw [hwritten] at hover
      exact absurd hroom (Nat.not_le_of_lt hover)
  | ok chunk =>
      have hfree : (session.relimit none).attempt source = _ := attempt_eq_run hcompile (.inl rfl)
      rcases hrun : ((session.relimit none).announced chunk).run chunk with ⟨result, final⟩
      rw [hrun] at hfree
      rw [hfree] at hover ⊢
      by_cases hlisting : ((session.relimit none).announced chunk).sink.written.size ≤ limit
      · obtain ⟨offset, before, cut, hexceeds, hwrites, hglobals, hlimited⟩ :=
          (Machine.run_truncated rfl hlisting hrun).2 hover
        exact ⟨chunk, cut, _, rfl, .print hlisting hexceeds hglobals, hwrites,
          attempt_relimit hcompile hlisting hlimited⟩
      · have hlong := Nat.lt_of_not_le hlisting
        refine ⟨chunk, _, _, rfl, .listing hlong, Machine.writesOn_of_run rfl hrun, ?_⟩
        have hlimited : compile (session.relimit (some limit)).config.recovery source =
            .ok chunk := hcompile
        simp only [attempt, hlimited, announce_of_lt hroom hlong]

end Attempt

end Session

/-- A sink that fails only cuts off. Let a session with room for its output so far interpret a
script with a limit, and let it do so without one. The limited sink ends up with the other's output
up to the limit. If that is all of it, then the status, the reason for a failure and the globals are
the same, and so is the stack. Otherwise the script fails because the output is full. If the first
byte too many belongs to the listing, nothing has been run and the machine is as it was. If it
belongs to the line of a print, the globals are those that the other session has when it gets to
this print. -/
theorem interpret_truncated (session : Session) (source : String) (limit : Nat)
    (hroom : session.machine.sink.written.size ≤ limit) {status status' : Status}
    {free limited : Session} (hfree : (session.relimit none).interpret source = (status, free))
    (hlimited : (session.relimit (some limit)).interpret source = (status', limited)) :
    limited.machine.sink.written = free.machine.sink.written.extract 0 limit ∧
      (free.machine.sink.written.size ≤ limit →
        status' = status ∧ limited = free.relimit (some limit)) ∧
      (limit < free.machine.sink.written.size → status' = .runtimeError ∧
        ∃ chunk pos, compile session.config.recovery source = .ok chunk ∧
          limited.lastFailure = some (.faulted ⟨.output Sink.full, pos⟩) ∧
          ((limit < ((session.relimit none).announced chunk).sink.written.size ∧
              limited.machine.globals = session.machine.globals ∧
              limited.machine.stack = session.machine.stack) ∨
            ((session.relimit none).announced chunk).sink.written.size ≤ limit ∧
              ∃ offset before after,
                Machine.Exceeds chunk ((session.relimit none).announced chunk) limit offset before
                  after ∧
                pos = chunk.posAt offset ∧ limited.machine.globals = before.globals)) := by
  rcases hattempt : (session.relimit none).attempt source with ⟨result, next⟩
  have hmachine : free.machine = next.machine := by
    rw [Session.interpret_eq, hattempt] at hfree
    cases result with
    | ok _ | error _ => rw [← (Prod.mk.inj hfree).2]
  rw [hmachine]
  by_cases hfits : next.machine.sink.written.size ≤ limit
  · have hsame : (session.relimit (some limit)).attempt source =
        (result, next.relimit (some limit)) := by
      rw [Session.attempt_of_le (by rw [hattempt]; exact hfits), hattempt]
    have hends : status' = status ∧ limited = free.relimit (some limit) := by
      rw [Session.interpret_eq, hattempt] at hfree
      rw [Session.interpret_eq, hsame] at hlimited
      cases result with
      | ok _ | error _ =>
          obtain ⟨rfl, rfl⟩ := Prod.mk.inj hfree
          obtain ⟨rfl, rfl⟩ := Prod.mk.inj hlimited
          exact ⟨rfl, rfl⟩
    refine ⟨?_, fun _ => hends, fun hover => absurd hfits (Nat.not_le_of_lt hover)⟩
    rw [hends.2, extract_of_size_le hfits, ← hmachine]
    rfl
  · have hover := Nat.lt_of_not_le hfits
    obtain ⟨chunk, cut, fault, hcompile, hoverruns, hwrites, hcut⟩ :=
      Session.attempt_of_lt hroom (by rw [hattempt]; exact hover)
    rw [hattempt] at hwrites
    rw [Session.interpret_eq, hcut] at hlimited
    obtain ⟨rfl, rfl⟩ := Prod.mk.inj hlimited
    refine ⟨?_, fun hle => absurd hle hfits, fun _ => ⟨rfl, ?_⟩⟩
    · exact (hwrites.extract_eq hoverruns.lt).symm
    · cases hoverruns with
      | listing hlong =>
          exact ⟨chunk, .unknown, hcompile, rfl, .inl ⟨hlong, rfl, rfl⟩⟩
      | @print offset before _ hlisting hexceeds hglobals =>
          exact ⟨chunk, chunk.posAt offset, hcompile, rfl,
            .inr ⟨hlisting, offset, before, cut, hexceeds, rfl, hglobals⟩⟩

/-- Between two assignments, a letter of two bytes is printed. -/
def Session.letterScript : String := "g = 1\nprint(\"é\")\ng = 2"

/-- The limit falls inside the letter. -/
theorem interpret_truncated_letter :
    Session.sample.machine.sink.written.size ≤ 1 ∧
      1 < ((Session.sample.relimit none).interpret
        Session.letterScript).2.machine.sink.written.size ∧
      ((Session.sample.relimit (some 1)).interpret Session.letterScript).1 = .runtimeError ∧
      ((Session.sample.relimit (some 1)).interpret Session.letterScript).2.machine.sink.written =
        ((Session.sample.relimit none).interpret
          Session.letterScript).2.machine.sink.written.extract 0 1 ∧
      ((Session.sample.relimit (some 1)).interpret Session.letterScript).2.global? "g" =
        some (.int 1) := by
  have hover : 1 < ((Session.sample.relimit none).interpret
      Session.letterScript).2.machine.sink.written.size := by decide +kernel
  obtain ⟨hwritten, _, hcut⟩ :=
    interpret_truncated Session.sample Session.letterScript 1 (by decide) rfl rfl
  exact ⟨by decide, hover, (hcut hover).1, hwritten, by decide +kernel⟩

end Scriptlet
