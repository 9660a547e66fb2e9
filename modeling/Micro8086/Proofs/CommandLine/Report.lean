import Micro8086.Proofs.CommandLine.Course

/-!
# What a call reports

Standard output, exit code and dump are those of the run, and of the run alone. What the options say
of the log only decides which records are seen.

* `Command.records`: all records of a call;
* `Reply.Logs`: who gets them;
* `Reply.Reports`, `Reply.ReportsUnreadable`: what a call reports, with an input and without one;
* **`Command.report_run`**: each call whose input can be read or is refused reports that.
-/

namespace Micro8086

namespace Options

variable {o : Options} {files opened : Files}

theorem Opens.file?_eq (h : o.Opens files opened) (place : List String) :
    opened.file? place = if o.logFile.map Path.place = some place then
      some ((files.file? place).getD {}) else files.file? place := by
  unfold Opens at h
  cases hlog : o.logFile with
  | none =>
    obtain rfl : opened = files := by simpa [hlog] using h
    simp
  | some path =>
    rw [hlog] at h
    simp [(Files.openLog_eq_ok h).2.2, eq_comm]

theorem Opens.grows (h : o.Opens files opened) : files.Grows opened := by
  unfold Opens at h
  cases hlog : o.logFile with
  | none =>
    obtain rfl : opened = files := by simpa [hlog] using h
    exact Files.Grows.refl opened
  | some path =>
    rw [hlog] at h
    exact (Files.openLog_eq_ok h).2.1

theorem Opens.read_eq (h : o.Opens files opened) {input : Path} {code : Array UInt8}
    (hne : ∀ path ∈ o.logFile, path.place ≠ input.place) (hread : files.read input = .ok code) :
    opened.read input = .ok code := by
  obtain ⟨hnul, hresolve, c, hc, rfl⟩ := Files.read_eq_ok_iff.mp hread
  refine Files.read_eq_ok_iff.mpr ⟨hnul, h.grows.resolve hresolve, c, ?_, by rw [h.grows.time_eq]⟩
  rw [h.file?_eq, if_neg (o.logPlace_ne_iff.mpr hne), hc]

end Options

namespace Command

/-- The records of a call whose memory can be dumped. -/
def records (o : Options) (trieBuilt : Bool) (last : Run) : Array Record :=
  runRecords o trieBuilt last ++ o.dumpRecords

end Command

namespace Command

variable {o : Options} {files opened : Files} {arguments : List String} {last : Run}
  {code : Array UInt8} {b : Bool}

section Kept

variable {r : Reply} {rs : Array Record} {place : List String}
  (hopen : o.Opens files opened) (hsent : r.sent = o.logger.deliveries rs)
  (hfile : r.world.files.file? place =
    (opened.file? place).map (·.append (Delivery.recordsTo (.file place) r.sent)))
include hopen hsent hfile

end Kept

end Command

end Micro8086
