import Marc21.File.Reader
import Marc21.Record.Validity

/-!
Looking a whole file through: it has to be readable to its end, and no record in it may have a defect.
-/

namespace Marc21

/-- What is wrong with a file. -/
inductive FileDefect where
  | unreadable (error : MarcError)
  | flawed (flaw : Flaw)
  deriving DecidableEq, Repr

def FileDefect.message : FileDefect → String
  | .unreadable error => error.message
  | .flawed flaw => flaw.message

namespace FileTree

/-- The first thing that is wrong with a file, if something is. -/
def inspect (t : FileTree) (path : String) (format : Option RecordFormat) :
    Except FileDefect Unit × List Notice :=
  match t.openReader path format with
  | (.error e, notices) => (.error (.unreadable e), notices)
  | (.ok r, notices) =>
    let w := (r.current t).walk FileDefect.unreadable (fun _ _ record =>
      let verdict := match record.flaw? with
        | some flaw => .error (.flawed flaw)
        | none => .ok ()
      (verdict, (), record.validityNotices)) ()
    (w.result, notices ++ w.notices)

end FileTree

end Marc21
