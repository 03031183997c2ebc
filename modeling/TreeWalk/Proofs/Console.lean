import TreeWalk.Console

/-!
# Consoles

A console starts with a new session and nothing printed, whatever it was started with. What running
a text does to it is told by what the text does to the session.
-/

namespace TreeWalk.Console

variable {c : Console}

/-- The log level does not touch the session, the format of dumps or what was printed. -/
theorem setLevel_frame (c : Console) (text : String) :
    (c.setLevel text).session = c.session ∧ (c.setLevel text).dump = c.dump ∧
      (c.setLevel text).stdout = c.stdout := by
  unfold setLevel
  cases Log.Level.ofText? text with
  | none => exact ⟨rfl, rfl, rfl⟩
  | some level => exact ⟨rfl, rfl, rfl⟩

/-- A console starts with a new session, and with nothing printed. -/
theorem start_frame (env : Surroundings) (o : Options) :
    (start env o).session = {} ∧ (start env o).dump = o.dump ∧ (start env o).stdout = "" := by
  cases hlevel : env.logLevel with
  | none => simp only [start, hlevel, and_self]
  | some text => simp only [start, hlevel, setLevel_frame, and_self]

theorem run_of_undumped (h : c.dump = none) (n : Nat) (source : String) :
    c.run n source =
      (c.session.run n source).map fun session => { c with session }.report source := by
  simp only [run, h]

theorem run_of_dumped (h : c.dump = some format) (n : Nat) (source : String) :
    c.run n source = some (({ c with session := (c.session.read source).2 }.print
      (dumpText (readSource c.session.names source).names
        (readSource c.session.names source).program format)).report source) := by
  simp only [run, h]
  rfl

end TreeWalk.Console
